import Hopter.Lib.Nested
import Hopter.SoftLock.Pending

/-!
# Nested preemption

On a single core an access is preempted by accesses that run to completion
before it goes on: the contexts in progress form a stack, and only the top one
runs. `Stacked` is the shape of that stack. With `locked` down every context in
it is a guard in the gap of its `drop`; with `locked` up there is one holder,
guards in the gap under it, and guards without the lock above it.

So the gap that strands work between threads is closed here: a guard that was
turned away is above the holder, and is gone before the holder looks at the flag.
-/

namespace Hopter

open Conc

section

variable {T : Type} [AllowPendOp T]

/-- A thread outside of any access is at rest. -/
def Phase.rest : Rest (Phase T) := ⟨.idle, Phase.isIdle, Phase.isIdle_iff⟩

/-- One atomic step of the access on top of the stack, or of one that starts there. -/
abbrev SoftLock.preemptStep :
    Nest (SoftLock T) (Phase T) → Move (Act T) → Option (Nest (SoftLock T) (Phase T)) :=
  Nest.step SoftLock.withAccess Phase.rest

/-- A fresh lock, and no access in progress. -/
def freshNest (content : T) : Nest (SoftLock T) (Phase T) := ⟨SoftLock.new content, []⟩

/-- The shape of the stack of accesses, by `locked`. -/
inductive Stacked : Bool → List (Phase T) → Prop where
  | gaps {ps} : (∀ q ∈ ps, q.Gap) → Stacked false ps
  | holder {p ps} : p.Holding → (∀ q ∈ ps, q.Gap) → Stacked true (p :: ps)
  | pendOnly {p ps} : p.PendOnly → Stacked true ps → Stacked true (p :: ps)

theorem Stacked.all_gap {ps : List (Phase T)} (h : Stacked false ps) : ∀ q ∈ ps, q.Gap := by
  cases h with
  | gaps h => exact h

/-- Under a holder there are only gaps. -/
theorem Stacked.below_holder {b : Bool} {p : Phase T} {ps : List (Phase T)}
    (h : Stacked b (p :: ps)) (hp : p.Holding) : b = true ∧ ∀ q ∈ ps, q.Gap := by
  cases h with
  | gaps h =>
      have hgap := h p List.mem_cons_self
      cases p <;> first | exact hgap.elim | exact hp.elim
  | holder _ h => exact ⟨rfl, h⟩
  | pendOnly hpend _ => cases p <;> first | exact hpend.elim | exact hp.elim

/-- Under a guard without the lock there is the holder it lost to. -/
theorem Stacked.below_pendOnly {b : Bool} {p : Phase T} {ps : List (Phase T)}
    (h : Stacked b (p :: ps)) (hp : p.PendOnly) : b = true ∧ Stacked true ps := by
  cases h with
  | gaps h =>
      have hgap := h p List.mem_cons_self
      cases p <;> first | exact hgap.elim | exact hp.elim
  | holder hhold _ => cases p <;> first | exact hhold.elim | exact hp.elim
  | pendOnly _ h => exact ⟨rfl, h⟩

/-- A guard in the gap that is on top finds the lock free. -/
theorem Stacked.below_gap {b : Bool} {p : Phase T} {ps : List (Phase T)}
    (h : Stacked b (p :: ps)) (hp : p.Gap) : b = false ∧ ∀ q ∈ ps, q.Gap := by
  cases h with
  | gaps h => exact ⟨rfl, fun q hq => h q (List.mem_cons_of_mem p hq)⟩
  | holder hhold _ => cases p <;> first | exact hhold.elim | exact hp.elim
  | pendOnly hpend _ => cases p <;> first | exact hpend.elim | exact hp.elim

/-- **The stack keeps its shape at every step.** -/
theorem stacked_step {n n' : Nest (SoftLock T) (Phase T)} {m : Move (Act T)}
    (h : Stacked n.shared.locked n.contexts) (hs : SoftLock.preemptStep n m = some n') :
    Stacked n'.shared.locked n'.contexts := by
  obtain ⟨p, below, act, s', p', hP, rfl, hm⟩ := Nest.step_cases hs
  -- a context that starts stands on the stack as it is; one that goes on is its top
  have hstack : (p = .idle ∧ Stacked n.shared.locked below)
      ∨ Stacked n.shared.locked (p :: below) := by
    rcases hm with ⟨-, rfl, rfl⟩ | ⟨-, hc⟩
    · exact Or.inl ⟨rfl, h⟩
    · rw [hc] at h
      exact Or.inr h
  have htop : p ≠ .idle → Stacked n.shared.locked (p :: below) := by
    intro hne
    rcases hstack with ⟨hp, -⟩ | h
    · exact absurd hp hne
    · exact h
  cases SoftLock.withAccess_cases hP with
  | guardFull hl =>
      rcases hstack with ⟨-, h⟩ | h
      · rw [hl] at h
        exact .holder trivial h.all_gap
      · rw [hl] at h
        exact absurd (h.all_gap _ List.mem_cons_self) id
  | guardPend hl =>
      rcases hstack with ⟨-, h⟩ | h
      · rw [hl] at h
        show Stacked n.shared.locked _
        rw [hl]
        exact .pendOnly trivial h
      · rw [hl] at h
        cases h with
        | holder hp _ => exact hp.elim
        | pendOnly hp _ => exact hp.elim
  | full _ | fullExit _ | swapTrue _ | swapFalse _ | run _ | runEnd _ =>
      obtain ⟨hl, hgap⟩ := (htop nofun).below_holder trivial
      show Stacked n.shared.locked _
      rw [hl]
      exact .holder trivial hgap
  | store =>
      obtain ⟨-, hgap⟩ := (htop nofun).below_holder trivial
      exact .gaps (List.forall_mem_cons.mpr ⟨trivial, hgap⟩)
  | pend _ | pendExit _ =>
      obtain ⟨hl, h⟩ := (htop nofun).below_pendOnly trivial
      show Stacked n.shared.locked _
      rw [hl]
      exact .pendOnly trivial h
  | pendStore =>
      obtain ⟨hl, h⟩ := (htop nofun).below_pendOnly trivial
      show Stacked n.shared.locked _
      rw [hl]
      exact h
  | loadTrue _ =>
      obtain ⟨hl, hgap⟩ := (htop nofun).below_gap trivial
      show Stacked n.shared.locked _
      rw [hl]
      exact .gaps (List.forall_mem_cons.mpr ⟨trivial, hgap⟩)
  | loadFalse _ =>
      obtain ⟨hl, hgap⟩ := (htop nofun).below_gap trivial
      show Stacked n.shared.locked _
      rw [hl]
      exact .gaps hgap
  | casFail hl =>
      obtain ⟨hf, -⟩ := (htop nofun).below_gap trivial
      rw [hl] at hf
      cases hf
  | casOk hl =>
      obtain ⟨-, hgap⟩ := (htop nofun).below_gap trivial
      exact .holder trivial hgap

theorem stacked_reachable {content : T} {n : Nest (SoftLock T) (Phase T)}
    (h : Reachable SoftLock.preemptStep (freshNest content) n) :
    Stacked n.shared.locked n.contexts :=
  h.invariant (I := fun n => Stacked n.shared.locked n.contexts)
    (.gaps fun _ hq => absurd hq List.not_mem_nil) fun _ ih hs => stacked_step ih hs

/-- The stack of accesses is one interleaving of threads, so whatever holds of those holds of it. -/
theorem preempt_interleaves {content : T} {n : Nest (SoftLock T) (Phase T)}
    (h : Reachable SoftLock.preemptStep (freshNest content) n) :
    Reachable SoftLock.step (fresh content) (n.flat Phase.rest) :=
  Nest.flat_reachable h

end

/-! ## Every access that got the lock leaves nothing pended -/

/-- With the lock free and the flag down there is no reason left for recorded work. -/
theorem drained_of_unlocked {n : Nest (SoftLock DemoInner) DemoPhase}
    (h : Reachable SoftLock.preemptStep (freshNest DemoInner.new) n)
    (hl : n.shared.locked = false) (hf : n.shared.pending = false) : Drained n.shared := by
  have hstack := stacked_reachable h
  rw [hl] at hstack
  -- every thread is outside, or in the gap
  have hslot : ∀ i, Nest.slot Phase.rest n.contexts i = .idle
      ∨ (Nest.slot Phase.rest n.contexts i).Gap := by
    intro i
    exact (Nest.slot_mem i).imp_right fun hi => hstack.all_gap _ hi
  have hnone : ∀ i, ¬ (Nest.slot Phase.rest n.contexts i).Holding := by
    intro i hi
    rcases hslot i with h0 | hg
    · rw [h0] at hi
      exact hi
    · generalize Nest.slot Phase.rest n.contexts i = q at hi hg
      cases q <;> first | exact hi.elim | exact hg.elim
  refine drained_of_free (preempt_interleaves h) hnone hf ?_
  by_contra hne
  rcases pendingKnown_reachable (preempt_interleaves h) (Nat.pos_of_ne_zero hne)
    with ht | ⟨i, hi⟩ | ⟨i, hi⟩
  · have ht : n.shared.pending = true := ht
    rw [hf] at ht
    cases ht
  · have hi : (Nest.slot Phase.rest n.contexts i).Recorded := hi
    rcases hslot i with h0 | hg
    · rw [h0] at hi
      exact hi
    · generalize Nest.slot Phase.rest n.contexts i = q at hi hg
      cases q <;> first | exact hi.elim | exact hg.elim
  · have hi : Nest.slot Phase.rest n.contexts i = .dropRun RunPended.swap := hi
    exact hnone i (by rw [hi]; trivial)

/--
**Drain completeness under nested preemption.**

The running access takes its last step and leaves the stack. If it had the lock,
nothing is pended then: whatever was recorded by the accesses that preempted it
has its id, queued or popped, and no id is missing or there twice. The outermost
access always had the lock, and leaves it free.
-/
theorem preempted_drain_complete {n n' : Nest (SoftLock DemoInner) DemoPhase} {act : DemoAct}
    (h : Reachable SoftLock.preemptStep (freshNest DemoInner.new) n)
    (hs : SoftLock.preemptStep n (.run act) = some n')
    {p : DemoPhase} (hret : n.contexts = p :: n'.contexts) :
    (p.lockHeld = true → Drained n'.shared)
      ∧ (n'.contexts = [] →
          p.lockHeld = true ∧ n'.shared.locked = false ∧ Drained n'.shared) := by
  have hstack := stacked_reachable h
  have hstack' := stacked_reachable (h.tail hs)
  obtain ⟨q, below, act', s', q', hP, hn', hm⟩ := Nest.step_cases hs
  rcases hm with ⟨hm, -, -⟩ | ⟨-, hc⟩
  · cases hm
  -- the context that left is the one that stepped, and it came to rest
  rw [hret, List.cons.injEq] at hc
  obtain ⟨rfl, hbelow⟩ := hc
  have hrest : q' = .idle := by
    by_contra hne
    have hpush : (Phase.rest (T := DemoInner)).push q' below = q' :: below := by
      unfold Rest.push
      rw [if_neg]
      rw [Phase.rest.isIdle_iff]
      exact hne
    have hlen := congrArg List.length hbelow
    rw [hn'] at hlen
    simp only [hpush, List.length_cons] at hlen
    omega
  subst hrest
  rw [hret] at hstack
  rcases step_to_idle hP with ⟨rfl, hf, heq⟩ | ⟨⟨a, rfl⟩, -, -⟩
  · -- a last look at the flag, in the gap
    obtain ⟨hl, -⟩ := hstack.below_gap trivial
    have hl' : n'.shared.locked = false := by rw [hn', heq]; exact hl
    have hf' : n'.shared.pending = false := by rw [hn', heq]; exact hf
    have hd := drained_of_unlocked (h.tail hs) hl' hf'
    exact ⟨fun _ => hd, fun _ => ⟨rfl, hl', hd⟩⟩
  · -- a guard that was turned away stands on the holder
    refine ⟨nofun, fun hnil => ?_⟩
    obtain ⟨-, hholder⟩ := hstack.below_pendOnly trivial
    rw [hnil] at hholder
    cases hholder

/-- One access is preempted with the queue mutex taken, and again after its `drop` gave the lock
up; that second one is preempted by a third, finds its flag, and is about to take the lock back. -/
def preemptRun : List (Move DemoAct) :=
  [.start .step, .run (.full .submitDirect), .run (.full .next), .run (.full .next), .start .step,
    .run (.pend .pendSubmit), .run (.exit true), .run .step, .run (.full .next),
    .run (.full .next), .run (.full .next), .run (.exit false), .run .step, .run .step, .run .step,
    .run .step, .run .step, .run .step, .run .step, .run .step, .run .step, .start .step,
    .run (.exit false), .run .step, .start .step, .run (.pend .pendSubmit), .run (.exit false),
    .run .step, .run .step, .run .step]

theorem preemptRun_contexts :
    (exec SoftLock.preemptStep (freshNest DemoInner.new) preemptRun).map (fun n => n.contexts)
      = some [.dropCas, .dropLoad] := rfl

/-- The second access of `preemptRun` takes the lock back, drains, and leaves; then the first. -/
theorem preempted_drain_complete_sample :
    ∃ n n', exec SoftLock.preemptStep (freshNest DemoInner.new)
        (preemptRun ++ List.replicate 10 (.run .step)) = some n
      ∧ SoftLock.preemptStep n (.run .step) = some n' ∧ Drained n'.shared := by
  have hctx : (exec SoftLock.preemptStep (freshNest DemoInner.new)
      (preemptRun ++ List.replicate 10 (.run .step))).map
        (fun n => (n.contexts, (SoftLock.preemptStep n (.run .step)).map fun n' => n'.contexts))
      = some ([.dropLoad, .dropLoad], some [.dropLoad]) := rfl
  rw [Option.map_eq_some_iff] at hctx
  obtain ⟨n, hn, hctx⟩ := hctx
  rw [Prod.mk.injEq, Option.map_eq_some_iff] at hctx
  obtain ⟨hc, n', hs, hc'⟩ := hctx
  refine ⟨n, n', hn, hs, ?_⟩
  exact (preempted_drain_complete ⟨_, hn⟩ hs (p := .dropLoad) (by rw [hc, hc'])).1 rfl

/-! ## No access waits for one it preempted -/

/-- Whoever is about to lock the queue mutex holds the soft lock, and not the mutex. -/
theorem locksQueue_free {p : DemoPhase} (h : p.locksQueue = true) :
    p.Holding ∧ p.use.inHand.held = false := by
  cases p with
  | full a =>
      change FullClosure at a
      refine ⟨trivial, ?_⟩
      cases a with
      | ready _ => cases h
      | submitDirect pc => cases pc <;> first | rfl | cases h
      | processSome pc => cases pc <;> first | rfl | cases h
      | queueLen pc => cases pc <;> first | rfl | cases h
      | runPendedOp pc => cases pc <;> first | rfl | cases h
  | dropRun r =>
      change RunPended at r
      refine ⟨trivial, ?_⟩
      cases r <;> first | rfl | cases h
  | _ => cases h

/--
**No blocking under nested preemption.**

When the running access takes `locked` again in `drop`, the lock is free and the
first attempt succeeds; when it locks the queue mutex, the mutex is free.
-/
theorem preempted_never_waits {n : Nest (SoftLock DemoInner) DemoPhase}
    (h : Reachable SoftLock.preemptStep (freshNest DemoInner.new) n)
    {p : DemoPhase} {below : List DemoPhase} (hc : n.contexts = p :: below) :
    (p = .dropCas → n.shared.locked = false
        ∧ SoftLock.preemptStep n (.run .step)
          = some ⟨{ n.shared with locked := true }, .dropSwap :: below⟩)
      ∧ (p.locksQueue = true → n.shared.content.queue.held = false) := by
  refine ⟨?_, ?_⟩
  · rintro rfl
    have hstack := stacked_reachable h
    rw [hc] at hstack
    obtain ⟨hl, -⟩ := hstack.below_gap trivial
    refine ⟨hl, ?_⟩
    unfold SoftLock.preemptStep Nest.step
    dsimp only
    rw [hc]
    simp only [SoftLock.withAccess, AccessGuard.drop, hl, Bool.false_eq_true, if_false]
    rfl
  · intro hlock
    obtain ⟨hhold, hhand⟩ := locksQueue_free hlock
    -- the one on top is the owner of the interleaving
    have htop : (n.flat Phase.rest).thread below.length = p := by
      show Nest.slot Phase.rest n.contexts below.length = p
      rw [hc, Nest.slot_top]
    obtain ⟨-, -, hqueue⟩ := owned_some (demo_owned (preempt_interleaves h))
      (i := below.length) (by rw [htop]; exact hhold)
    rw [htop] at hqueue
    rw [← hhand]
    exact hqueue.held

/-- At the end of `preemptRun` the lock is there to be taken back. -/
theorem preempted_never_waits_sample :
    ∃ n, exec SoftLock.preemptStep (freshNest DemoInner.new) preemptRun = some n
      ∧ n.shared.locked = false
      ∧ SoftLock.preemptStep n (.run .step)
          = some ⟨{ n.shared with locked := true }, [.dropSwap, .dropLoad]⟩ := by
  have hctx := preemptRun_contexts
  rw [Option.map_eq_some_iff] at hctx
  obtain ⟨n, hn, hc⟩ := hctx
  exact ⟨n, hn, (preempted_never_waits ⟨preemptRun, hn⟩ hc).1 rfl⟩

end Hopter
