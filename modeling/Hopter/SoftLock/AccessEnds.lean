import Hopter.SoftLock.Progress
import Hopter.SoftLock.SoftBench

/-!
# The steps of an access

No step of an access waits. The `compare_exchange` in `drop` may fail, but with the lock
free it does not, and the queue mutex is always free when it is locked. `Phase.toEnd`
counts the steps that are left when nobody interferes.
-/

namespace Hopter

open Conc

/-! ## No step waits -/

theorem goOn_goes (l : SoftLock DemoInner) {p : DemoPhase}
    (hready : ∀ ret, p ≠ .full (FullClosure.ready ret)) (hpend : ∀ a, p ≠ .pend a) :
    (SoftLock.withAccess l p (goOn p)).isSome := by
  cases p with
  | full a =>
      change FullClosure at a
      simp only [goOn, SoftLock.withAccess, Option.isSome_map]
      show (a.step l.content .next).isSome
      cases a with
      | ready ret => exact absurd rfl (hready ret)
      | submitDirect pc | processSome pc | queueLen pc | runPendedOp pc =>
          simp only [FullClosure.step]
          split <;> rfl
  | pend a => exact absurd rfl (hpend a)
  | dropCas =>
      simp only [goOn, SoftLock.withAccess, AccessGuard.drop]
      split <;> rfl
  | _ => rfl

/-- The steps that are left. -/
def SubmitDirect.left : SubmitDirect → ℕ
  | .draw => 5
  | .lock _ => 4
  | .push _ => 3
  | .count => 2
  | .unlock => 1

def ProcessSome.left : ProcessSome → ℕ
  | .lock budget => 3 * budget + 3
  | .loop budget _ => 3 * budget + 2
  | .count budget _ => 3 * (budget - 1) + 3
  | .unlock _ => 1

def QueueLen.left : QueueLen → ℕ
  | .lock => 3
  | .read => 2
  | .unlock _ => 1

/-- The same for a drain, where a count that has still to be taken is left out. -/
def RunPended.toEnd : RunPended → ℕ
  | .swap => 5
  | r => r.left

def FullClosure.left : FullClosure → ℕ
  | .ready _ => 0
  | .submitDirect pc => pc.left
  | .processSome pc => pc.left
  | .queueLen pc => pc.left
  | .runPendedOp pc => pc.toEnd

theorem submitDirect_left {d : DemoInner} {pc : SubmitDirect}
    (hqueue : FullClosure.locksQueue (.submitDirect pc) = true → d.queue.held = false) :
    (InnerFullAccessor.submitDirect d pc).2.elim 0 SubmitDirect.left < pc.left := by
  cases pc with
  | lock id =>
      simp only [InnerFullAccessor.submitDirect, hqueue rfl, Bool.false_eq_true, if_false]
      exact Nat.lt_succ_self 3
  | draw | push _ | count | unlock => exact Nat.lt_succ_self _

theorem processSome_left {d : DemoInner} {pc : ProcessSome}
    (hqueue : FullClosure.locksQueue (.processSome pc) = true → d.queue.held = false) :
    (InnerFullAccessor.processSome d pc).2.elim ProcessSome.left (fun _ => 0) < pc.left := by
  cases pc with
  | lock budget =>
      simp only [InnerFullAccessor.processSome, hqueue rfl, Bool.false_eq_true, if_false]
      exact Nat.lt_succ_self _
  | loop budget n =>
      simp only [InnerFullAccessor.processSome]
      split
      · rename_i hpos
        split <;> simp only [Sum.elim_inl, ProcessSome.left] <;> omega
      · simp only [Sum.elim_inl, ProcessSome.left]
        omega
  | count budget n => exact Nat.lt_succ_self _
  | unlock n => exact Nat.lt_succ_self _

theorem queueLen_left {d : DemoInner} {pc : QueueLen}
    (hqueue : FullClosure.locksQueue (.queueLen pc) = true → d.queue.held = false) :
    (InnerFullAccessor.queueLen d pc).2.elim QueueLen.left (fun _ => 0) < pc.left := by
  cases pc with
  | lock =>
      simp only [InnerFullAccessor.queueLen, hqueue rfl, Bool.false_eq_true, if_false]
      exact Nat.lt_succ_self _
  | read | unlock _ => exact Nat.lt_succ_self _

theorem runPendedOp_toEnd {d : DemoInner} {pc : RunPended}
    (hqueue : pc.locksQueue = true → d.queue.held = false) :
    2 * (InnerFullAccessor.runPendedOp d pc).1.pendingSubmit
        + (InnerFullAccessor.runPendedOp d pc).2.elim 0 RunPended.toEnd
      < 2 * d.pendingSubmit + pc.toEnd := by
  have hle := (runPendedOp_effect d pc).pendingSubmit_le
  cases pc with
  | swap =>
      simp only [InnerFullAccessor.runPendedOp]
      split <;> simp only [Option.elim, RunPended.toEnd, RunPended.left] <;> omega
  | lock n =>
      simp only [InnerFullAccessor.runPendedOp, hqueue rfl, Bool.false_eq_true, if_false]
      exact Nat.lt_succ_self _
  | loop k => cases k <;> exact Nat.lt_succ_self _
  | batches n | items n | push k id => exact Nat.lt_succ_self _

/-- **A method gets closer to its end with each step.** -/
theorem FullClosure.next_left {d d' : DemoInner} {a a' : FullClosure}
    (h : a.step d .next = some (d', a'))
    (hqueue : a.locksQueue = true → d.queue.held = false) :
    2 * d'.pendingSubmit + a'.left < 2 * d.pendingSubmit + a.left := by
  have hle := (FullClosure.step_effect h).pendingSubmit_le
  cases a with
  | ready ret => cases h
  | submitDirect pc =>
      have hlt := submitDirect_left hqueue
      simp only [FullClosure.step] at h
      split at h <;> rename_i he <;> cases h <;> rw [he] at hlt <;>
        simp only [Option.elim] at hlt <;> simp only [FullClosure.left] <;> omega
  | processSome pc =>
      have hlt := processSome_left hqueue
      simp only [FullClosure.step] at h
      split at h <;> rename_i he <;> cases h <;> rw [he] at hlt <;>
        simp only [Sum.elim_inl, Sum.elim_inr] at hlt <;> simp only [FullClosure.left] <;> omega
  | queueLen pc =>
      have hlt := queueLen_left hqueue
      simp only [FullClosure.step] at h
      split at h <;> rename_i he <;> cases h <;> rw [he] at hlt <;>
        simp only [Sum.elim_inl, Sum.elim_inr] at hlt <;> simp only [FullClosure.left] <;> omega
  | runPendedOp pc =>
      have hfree : pc.locksQueue = true → d.queue.held = false := by
        intro hlocks
        refine hqueue ?_
        cases pc <;> first | rfl | cases hlocks
      have hlt := runPendedOp_toEnd hfree
      simp only [FullClosure.step] at h
      split at h <;> rename_i he <;> cases h <;> rw [he] at hlt <;>
        simp only [Option.elim] at hlt <;> simp only [FullClosure.left] <;> omega

namespace Phase

/-- The steps that are left of an access nobody interferes with, the closure's own apart. Another
round of `drop` counts where the flag is up. -/
def toEnd (flag : Bool) : DemoPhase → ℕ
  | .idle => 0
  | .dropPend _ => 1
  | .pend _ => 2
  | .dropLoad => 1 + 9 * flag.toNat
  | .dropStore => 2 + 9 * flag.toNat
  | .dropRun r => 2 + RunPended.toEnd r + 9 * flag.toNat
  | .dropSwap => 3 + 5 * flag.toNat
  | .dropCas => 4 + 5 * flag.toNat
  | .full a => 10 + FullClosure.left a + 9 * flag.toNat

end Phase

/-- **Each step gets closer to the end of the access.** -/
theorem withAccess_toEnd {l l' : SoftLock DemoInner} {p p' : DemoPhase} {act : DemoAct}
    (hs : SoftLock.withAccess l p act = some (l', p')) (hidle : p ≠ .idle)
    (hact : act = goOn p ∨ ∃ u, act = .exit u) (hlock : p = .dropCas → l.locked = false)
    (hqueue : p.locksQueue = true → l.content.queue.held = false) :
    2 * l'.content.pendingSubmit + p'.toEnd l'.pending
      < 2 * l.content.pendingSubmit + p.toEnd l.pending := by
  rcases hact with rfl | ⟨u, rfl⟩
  · cases p with
    | full a =>
        obtain ⟨a, a', d, hp, rfl, rfl, hf⟩ := SoftLock.withAccess_full hs
        cases hp
        have hlt := FullClosure.next_left hf hqueue
        simp only [Phase.toEnd]
        omega
    | dropRun r =>
        have hlt : _ < 2 * l.content.pendingSubmit + RunPended.toEnd r := runPendedOp_toEnd hqueue
        cases SoftLock.withAccess_cases hs with
        | run hr | runEnd hr =>
            change InnerFullAccessor.runPendedOp l.content r = _ at hr
            rw [hr] at hlt
            simp only [Option.elim] at hlt
            simp only [Phase.toEnd]
            omega
    | dropCas =>
        cases SoftLock.withAccess_cases hs with
        | casFail hl =>
            rw [hlock rfl] at hl
            cases hl
        | casOk _ =>
            simp only [Phase.toEnd]
            omega
    | idle => exact absurd rfl hidle
    | pend a => cases hs
    | dropSwap =>
        cases SoftLock.withAccess_cases hs with
        | swapTrue hp | swapFalse hp =>
            rw [hp]
            simp only [Phase.toEnd, AllowPendOp.runPendedOp, RunPended.toEnd, Bool.toNat_true,
              Bool.toNat_false]
            omega
    | dropStore | dropPend _ =>
        cases hs
        simp only [Phase.toEnd]
        omega
    | dropLoad =>
        cases SoftLock.withAccess_cases hs with
        | loadTrue hp | loadFalse hp =>
            rw [hp]
            simp only [Phase.toEnd, Bool.toNat_true, Bool.toNat_false]
            omega
  · cases SoftLock.withAccess_cases hs with
    | fullExit hr =>
        simp only [Phase.toEnd]
        omega
    | pendExit _ =>
        simp only [Phase.toEnd]
        omega
    | _ => simp [SoftLock.withAccess] at hs

/-- So it changes something. -/
theorem withAccess_moves {l l' : SoftLock DemoInner} {p p' : DemoPhase} {act : DemoAct}
    (hs : SoftLock.withAccess l p act = some (l', p')) (hidle : p ≠ .idle)
    (hact : act = goOn p ∨ ∃ u, act = .exit u) (hlock : p = .dropCas → l.locked = false)
    (hqueue : p.locksQueue = true → l.content.queue.held = false) : (l', p') ≠ (l, p) := by
  intro heq
  cases heq
  exact absurd (withAccess_toEnd hs hidle hact hlock hqueue) (Nat.lt_irrefl _)

/-- **A holder waits for nobody**: it has a step that changes something. -/
theorem holder_moves {ι : Type} [DecidableEq ι] {c : Config (SoftLock DemoInner) ι DemoPhase}
    (h : Reachable SoftLock.step (fresh DemoInner.new) c) {i : ι} (hi : (c.thread i).Holding) :
    ∃ act c', SoftLock.step c (i, act) = some c' ∧ c' ≠ c := by
  have hgo : ∃ act, (act = goOn (c.thread i) ∨ ∃ u, act = .exit u)
      ∧ (SoftLock.withAccess c.shared (c.thread i) act).isSome := by
    by_cases hready : ∃ ret, c.thread i = .full (FullClosure.ready ret)
    · obtain ⟨ret, hp⟩ := hready
      refine ⟨.exit false, Or.inr ⟨false, rfl⟩, ?_⟩
      rw [hp]
      rfl
    · refine ⟨goOn (c.thread i), Or.inl rfl, goOn_goes c.shared ?_ ?_⟩
      · exact fun ret hp => hready ⟨ret, hp⟩
      · rintro a hp
        rw [hp] at hi
        exact hi
  obtain ⟨act, hact, hsome⟩ := hgo
  obtain ⟨⟨l', p'⟩, hs⟩ := Option.isSome_iff_exists.mp hsome
  refine ⟨act, _, Config.step_eq_some.mpr ⟨l', p', hs, rfl⟩, fun heq => ?_⟩
  have hshared : l' = c.shared := congrArg Config.shared heq
  have hthread : p' = c.thread i := by
    have hsame := congrFun (congrArg Config.thread heq) i
    dsimp only at hsame
    rwa [Function.update_self] at hsame
  refine withAccess_moves hs ?_ hact ?_ (queue_free h) (Prod.ext hshared hthread)
  · intro hp
    rw [hp] at hi
    exact hi
  · intro hp
    rw [hp] at hi
    exact hi.elim

/-- The steps of a method. -/
def FullCall.steps : FullCall → ℕ
  | .submitDirect => 5
  | .processSome budget => 3 * budget + 3
  | .queueLen => 3
  | .runPendedOp => 5
  | .load _ | .addFullEntries | .next => 0

/-- A call makes it as much longer as the method takes. -/
theorem call_toEnd {l l' : SoftLock DemoInner} {p' : DemoPhase} {ret : Option ℕ} {k : FullCall}
    (hs : SoftLock.withAccess l (.full (FullClosure.ready ret)) (.full k) = some (l', p')) :
    2 * l'.content.pendingSubmit + p'.toEnd l'.pending
        = 2 * l.content.pendingSubmit + (10 + 9 * l.pending.toNat) + k.steps
      ∧ p'.isFull = true := by
  obtain ⟨a, a', d, ha, rfl, rfl, hf⟩ := SoftLock.withAccess_full hs
  cases ha
  have hcall : d.pendingSubmit = l.content.pendingSubmit ∧ FullClosure.left a' = k.steps := by
    replace hf : FullClosure.step l.content (.ready ret) k = some (d, a') := hf
    cases k <;> cases hf <;> exact ⟨rfl, rfl⟩
  obtain ⟨hpend, hleft⟩ := hcall
  simp only [Phase.toEnd, hpend, hleft]
  exact ⟨by omega, rfl⟩

end Hopter
