import Hopter.SoftLock.Demo

/-!
# How often the drain loop goes around

A guard clears `pending` at its `swap` and goes around again if its `load` finds the
flag up. Between the two somebody has raised it, and only guards without the lock do
that, once each. The stretches from a swap to the load after it do not overlap, so
every iteration but the first has a `pending.store(true)` of its own.

`Paid` is that, with the count of both: it is checked step by step, and says at the
`load` that an unpaid guard leaves.
-/

namespace Hopter

open Conc

variable {T : Type} [AllowPendOp T]

namespace Phase

/-- In the `drop` of a guard that has held the lock. -/
def Dropping : Phase T → Prop
  | .dropSwap | .dropRun _ | .dropStore | .dropLoad | .dropCas => True
  | _ => False

/-- The guard has seen `pending` up and has not cleared it yet: another iteration. -/
def Again : Phase T → Prop
  | .dropCas | .dropSwap => True
  | _ => False

/-- Before `pending.swap(false)`. -/
def isDropSwap : Phase T → Bool
  | .dropSwap => true
  | _ => false

theorem isDropSwap_iff {p : Phase T} : p.isDropSwap = true ↔ p = .dropSwap := by
  cases p <;> simp [isDropSwap]

instance : DecidablePred (Dropping (T := T))
  | .dropSwap | .dropRun _ | .dropStore | .dropLoad | .dropCas => .isTrue trivial
  | .idle | .full _ | .pend _ | .dropPend _ => .isFalse id

/-- Before `pending.store(true)`. -/
def isDropPend : Phase T → Bool
  | .dropPend _ => true
  | _ => false

end Phase

section

variable {ι : Type} [DecidableEq ι]

/-- The step is the swap of guard `i`, with which an iteration begins. -/
def swaps (i : ι) (c : Config (SoftLock T) ι (Phase T)) (e : ι × Act T) : Bool :=
  decide (e.1 = i) && (c.thread i).isDropSwap

/-- The step is a `pending.store(true)`. -/
def stores (c : Config (SoftLock T) ι (Phase T)) (e : ι × Act T) : Bool :=
  (c.thread e.1).isDropPend

/-- Guard `i` has gone around `extra` times more after its first iteration, and `stored` times the
flag was raised since its first swap. -/
structure Paid (i : ι) (c : Config (SoftLock T) ι (Phase T)) (extra stored : ℕ) : Prop where
  bound : extra ≤ stored
  /-- One more iteration is paid for. -/
  again : (c.thread i).Again → extra + 1 ≤ stored
  pending : (c.thread i).Dropping → c.shared.pending = true → extra + 1 ≤ stored

/-- Only a `pending.store(true)` raises the flag. -/
theorem pending_of_step {s s' : SoftLock T} {p p' : Phase T} (h : AccessStep s p s' p')
    (hup : s'.pending = true) : s.pending = true ∨ p.isDropPend = true := by
  cases h with
  | pendStore => exact Or.inr rfl
  | swapTrue _ | swapFalse _ => simp at hup
  | _ => exact Or.inl hup

/-- A step of another thread. -/
theorem Paid.other {i : ι} {c c' : Config (SoftLock T) ι (Phase T)} {e : ι × Act T}
    {extra stored : ℕ} (h : Paid i c extra stored) (hs : SoftLock.step c e = some c')
    (hne : e.1 ≠ i) : Paid i c' extra (stored + (stores c e).toNat) := by
  have hsame : c'.thread i = c.thread i := Config.thread_of_step hs fun heq => hne heq.symm
  have hbound := h.bound
  refine ⟨by omega, fun hagain => ?_, fun hdrop hup => ?_⟩
  · rw [hsame] at hagain
    have := h.again hagain
    omega
  · rw [hsame] at hdrop
    rcases pending_of_step (SoftLock.withAccess_cases (Config.local_of_step hs)) hup with hold | hst
    · have := h.pending hdrop hold
      omega
    · -- the flag has just been raised, and this is the payment
      have hone : (stores c e).toNat = 1 := by
        unfold stores
        rw [hst]
        rfl
      omega

/-- A step of the guard. Its swap uses up what was paid, and its load asks for a payment. -/
theorem Paid.own {i : ι} {c c' : Config (SoftLock T) ι (Phase T)} {act : Act T} {extra stored : ℕ}
    (h : Paid i c extra stored) (hs : SoftLock.step c (i, act) = some c')
    (hin : (c.thread i).Dropping) :
    Paid i c' (extra + (c.thread i).isDropSwap.toNat) stored := by
  have hstep : AccessStep c.shared (c.thread i) c'.shared (c'.thread i) :=
    SoftLock.withAccess_cases (Config.local_of_step hs)
  obtain ⟨hbound, hagain, hpending⟩ := h
  suffices hkey : extra + (c.thread i).isDropSwap.toNat ≤ stored
      ∧ ((c'.thread i).Again → extra + (c.thread i).isDropSwap.toNat + 1 ≤ stored)
      ∧ ((c'.thread i).Dropping → c'.shared.pending = true →
        extra + (c.thread i).isDropSwap.toNat + 1 ≤ stored) from ⟨hkey.1, hkey.2.1, hkey.2.2⟩
  replace hpending := hpending hin
  generalize c.thread i = p at *
  generalize c'.thread i = p' at *
  generalize c'.shared = s' at *
  cases hstep with
  | swapTrue _ | swapFalse _ =>
      -- the flag is down now
      have hpaid := hagain trivial
      refine ⟨hpaid, fun hgo => hgo.elim, fun _ hup => ?_⟩
      simp at hup
  | run _ | runEnd _ | store =>
      exact ⟨hbound, fun hgo => hgo.elim, fun _ hup => hpending hup⟩
  | loadTrue hup =>
      have hpaid := hpending hup
      exact ⟨hbound, fun _ => hpaid, fun _ _ => hpaid⟩
  | loadFalse _ => exact ⟨hbound, fun hgo => hgo.elim, fun hdrop => hdrop.elim⟩
  | casFail _ | casOk _ =>
      have hpaid := hagain trivial
      exact ⟨hbound, fun _ => hpaid, fun _ _ => hpaid⟩
  | guardFull _ | guardPend _ | full _ | fullExit _ | pend _ | pendExit _ | pendStore =>
      exact hin.elim

/-- **One step of any thread.** -/
theorem paid_step {i : ι} {c c' : Config (SoftLock T) ι (Phase T)} {e : ι × Act T}
    {extra stored : ℕ} (h : Paid i c extra stored) (hs : SoftLock.step c e = some c')
    (hin : e.1 = i → (c.thread i).Dropping) :
    Paid i c' (extra + (swaps i c e).toNat) (stored + (stores c e).toNat) := by
  by_cases hi : e.1 = i
  · subst hi
    have hnot : stores c e = false := by
      have hdrop := hin rfl
      unfold stores
      generalize c.thread e.1 = p at hdrop
      cases p <;> simp_all [Phase.Dropping, Phase.isDropPend]
    have hswap : swaps e.1 c e = (c.thread e.1).isDropSwap := by simp [swaps]
    rw [hnot, hswap]
    exact h.own hs (hin rfl)
  · have hnot : swaps i c e = false := by simp [swaps, hi]
    rw [hnot]
    exact h.other hs hi

/-- After the first swap of the guard. -/
theorem paid_start {i : ι} {c₀ c₁ : Config (SoftLock T) ι (Phase T)}
    (hswap : c₀.thread i = .dropSwap) (hs : SoftLock.step c₀ (i, .step) = some c₁) :
    Paid i c₁ 0 0 := by
  have hstep : AccessStep c₀.shared (c₀.thread i) c₁.shared (c₁.thread i) :=
    SoftLock.withAccess_cases (Config.local_of_step hs)
  suffices hkey : ¬ (c₁.thread i).Again ∧ c₁.shared.pending = false by
    refine ⟨Nat.le_refl 0, fun hgo => absurd hgo hkey.1, fun _ hup => ?_⟩
    rw [hkey.2] at hup
    simp at hup
  rw [hswap] at hstep
  generalize c₁.thread i = p' at *
  generalize c₁.shared = s' at *
  cases hstep with
  | swapTrue _ | swapFalse _ => exact ⟨fun hgo => hgo.elim, rfl⟩

/-- **A run.** -/
theorem paid_run {i : ι} {c₁ c : Config (SoftLock T) ι (Phase T)} {es : List (ι × Act T)}
    (h : Paid i c₁ 0 0) (hrun : exec SoftLock.step c₁ es = some c)
    (hin : ∀ d a, Takes SoftLock.step c₁ es d (i, a) → (d.thread i).Dropping) :
    Paid i c (tally SoftLock.step (swaps i) c₁ es) (tally SoftLock.step stores c₁ es) := by
  refine exec_history (I := fun as d => as <+: es → Paid i d (tally SoftLock.step (swaps i) c₁ as)
    (tally SoftLock.step stores c₁ as)) (fun _ => h) ?_ hrun (List.prefix_refl es)
  intro as d d' e has ih hs hpre
  rw [tally_concat e has, tally_concat e has]
  refine paid_step (ih ((List.prefix_append as [e]).trans hpre)) hs fun hi => ?_
  subst hi
  exact hin d e.2 ⟨as, hpre, has⟩

/--
**The drain loop repeats only for new work.**

`i` is a guard at a swap of its drop, the first one or any other. However the run
goes on, the iterations from there on are at most one more than the times the flag
was raised since; whenever the guard goes around again they are no more than these;
and if all are used up the guard leaves with its next load. In an endless run in
which the flag is raised finitely often the guard does not go around forever.
-/
theorem drain_loop_bounded {i : ι} {c₀ c₁ : Config (SoftLock T) ι (Phase T)}
    (hswap : c₀.thread i = .dropSwap) (hfirst : SoftLock.step c₀ (i, .step) = some c₁) :
    (∀ es c, exec SoftLock.step c₁ es = some c →
      (∀ d a, Takes SoftLock.step c₁ es d (i, a) → (d.thread i).Dropping) →
        let iterations := tally SoftLock.step (swaps i) c₀ ((i, .step) :: es)
        let stored := tally SoftLock.step stores c₁ es
        iterations ≤ 1 + stored
        ∧ ((c.thread i).Again → iterations ≤ stored)
        ∧ (c.thread i = .dropLoad → iterations = 1 + stored → ∀ c',
          SoftLock.step c (i, .step) = some c' → c'.thread i = .idle))
    ∧ ∀ σ as, Endless SoftLock.step σ as → σ 0 = c₁ →
      (∀ n, (as n).1 = i → ((σ n).thread i).Dropping) →
        (∃ N, ∀ n, N ≤ n → stores (σ n) (as n) = false) →
          ∃ N, ∀ n, N ≤ n → swaps i (σ n) (as n) = false := by
  have hstart := paid_start hswap hfirst
  have hone : (swaps i c₀ (i, .step)).toNat = 1 := by simp [swaps, hswap, Phase.isDropSwap]
  constructor
  · intro es c hrun hin
    have hpaid := paid_run hstart hrun hin
    rw [tally_cons es hfirst, hone]
    refine ⟨Nat.add_le_add_left hpaid.bound 1, fun hagain => ?_, fun hload hall c' hs => ?_⟩
    · have := hpaid.again hagain
      omega
    · have hdown : c.shared.pending = false := by
        by_contra hup
        have hdrop : (c.thread i).Dropping := by
          rw [hload]
          trivial
        have := hpaid.pending hdrop (by simpa using hup)
        omega
      have hlocal := Config.local_of_step hs
      rw [hload] at hlocal
      simp only [SoftLock.withAccess, AccessGuard.drop, hdown, Bool.false_eq_true, if_false,
        Option.some.injEq, Prod.mk.injEq] at hlocal
      exact hlocal.2.symm
  · intro σ as hend hσ hin hfinite
    obtain ⟨N, hN⟩ := hfinite
    have hpaid : ∀ n, Paid i (σ n) (Endless.count σ as (swaps i) n)
        (Endless.count σ as stores n) := by
      intro n
      induction n with
      | zero => exact hσ ▸ hstart
      | succ n ih => exact paid_step ih (hend n) (hin n)
    have hle : ∀ n, Endless.count σ as (swaps i) n ≤ Endless.count σ as stores N := fun n =>
      (hpaid n).bound.trans (Endless.count_le_of_stop hN n)
    exact Endless.stop_of_count_le hle

end

/-- Thread 0 has the lock and begins its drop; thread 1 has been turned away. -/
def dropRun : List (Fin 2 × DemoAct) :=
  [(0, .step), (1, .step), (1, .pend .pendSubmit), (0, .exit false)]

/-- Behind the swap of thread 0 thread 1 raises the flag, and thread 0 goes around again. -/
def againRun : List (Fin 2 × DemoAct) :=
  [(1, .exit false), (1, .step), (0, .step), (0, .step), (0, .step), (0, .step)]

/-- The bound is reached. -/
theorem drain_loop_bounded_again :
    ∃ c₀ c₁ c, exec SoftLock.step (fresh DemoInner.new) dropRun = some c₀
      ∧ SoftLock.step c₀ (0, .step) = some c₁ ∧ exec SoftLock.step c₁ againRun = some c
      ∧ tally SoftLock.step (swaps 0) c₀ ((0, .step) :: againRun) = 2
      ∧ tally SoftLock.step (swaps 0) c₀ ((0, .step) :: againRun)
        ≤ 1 + tally SoftLock.step stores c₁ againRun := by
  have hrun : ((exec SoftLock.step (fresh DemoInner.new) dropRun).bind fun c₀ =>
      (SoftLock.step c₀ (0, .step)).bind fun c₁ =>
        (exec SoftLock.step c₁ againRun).map fun _ =>
          ((c₀.thread 0).isDropSwap, tally SoftLock.step (swaps 0) c₀ ((0, .step) :: againRun),
            decide (TakesAll SoftLock.step (fun d e => e.1 = 0 → (d.thread 0).Dropping) c₁
              againRun)))
      = some (true, 2, true) := by decide +kernel
  obtain ⟨c₀, hc₀, hrun⟩ := Option.bind_eq_some_iff.mp hrun
  obtain ⟨c₁, hc₁, hrun⟩ := Option.bind_eq_some_iff.mp hrun
  obtain ⟨c, hc, hrun⟩ := Option.map_eq_some_iff.mp hrun
  simp only [Prod.mk.injEq, decide_eq_true_eq] at hrun
  obtain ⟨hswap, htwo, hall⟩ := hrun
  have hbounded := (drain_loop_bounded (Phase.isDropSwap_iff.mp hswap) hc₁).1 againRun c hc
    fun d a htakes => hall.takes htakes rfl
  exact ⟨c₀, c₁, c, hc₀, hc₁, hc, htwo, hbounded.1⟩

end Hopter
