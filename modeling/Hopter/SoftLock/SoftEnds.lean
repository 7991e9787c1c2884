import Mathlib.Order.Filter.Finite
import Hopter.SoftLock.Livelock
import Hopter.SoftLock.LoneConsumer

/-!
# Whether `run_softlock_bench` comes to an end

Nobody waits for anybody in this benchmark but in the joins, and the producers have
only so much to do. What can go on forever is a `drop`: its guard may find the flag up
again and again.

The flag is raised by guards without the lock, and the producers do not have so many of
those. So a `drop` that never ends is one of a producer, which the consumer overtakes.
In any other endless run the producers are over at some moment, and the consumer is
alone. Then an access drains everything that is pended, and processes something as long
as the queue is not empty.
-/

namespace Hopter

open Conc

/-! ## Nobody waits -/

/-- What a producer does with Full access. -/
def Phase.Submits : DemoPhase → Prop
  | .full (FullClosure.ready _) | .full (FullClosure.submitDirect _) => True
  | .full _ => False
  | _ => True

theorem producer_submits {t t' : SoftProducer} {p p' : DemoPhase} {act : DemoAct}
    {l l' : SoftLock DemoInner} (hp : p.Submits) (h : runSoftlockBench.producer t p = .act act t')
    (hs : SoftLock.withAccess l p act = some (l', p')) : p'.Submits := by
  unfold runSoftlockBench.producer at h
  split at h
  · split at h
    · cases h
    · cases h
      cases SoftLock.withAccess_cases hs <;> trivial
  · split at h <;> cases h <;> cases hs <;> trivial
  · split at h <;> cases h <;> cases hs <;> trivial
  · rename_i hidle hready hpend
    cases h
    cases p with
    | full a =>
        obtain ⟨a, a', d, ha, rfl, rfl, hf⟩ := SoftLock.withAccess_full hs
        cases ha
        change FullClosure at a a'
        replace hf : a.step l.content .next = some (d, a') := hf
        cases a with
        | ready ret => exact absurd rfl (hready ret)
        | submitDirect pc =>
            simp only [FullClosure.step] at hf
            split at hf <;> cases hf <;> trivial
        | _ => exact hp.elim
    | idle => exact absurd rfl hidle
    | pend a => exact absurd rfl (hpend a)
    | _ => cases SoftLock.withAccess_cases hs <;> trivial

/-- The steps that are left of the closure. -/
def ProducerPoint.toLeave : ProducerPoint → ℕ
  | .countEntry => 8
  | .submit => 7
  | .leave => 1

namespace SoftProducer

/-- The steps that are left of the round it is in, `drop` apart. -/
def round (t : SoftProducer) : DemoPhase → ℕ
  | .full a => t.pc.toLeave + FullClosure.left a
  | .pend _ => t.pc.toLeave + 1
  | .dropPend _ => 1
  | _ => 0

/-- The steps that are left, of `drop` apart. -/
def work (t : SoftProducer) (p : DemoPhase) : ℕ := 10 * t.left + t.round p

theorem work_le {t t' : SoftProducer} {p p' : DemoPhase} {k : ℕ} (hleft : t'.left = t.left)
    (hround : t'.round p' + k ≤ t.round p) : t'.work p' + k ≤ t.work p := by
  unfold work
  omega

end SoftProducer

theorem softProducer_work {t t' : SoftProducer} {p p' : DemoPhase} {l l' : SoftLock DemoInner}
    {done : Bool} (hp : p.Submits) (hqueue : p.locksQueue = true → l.content.queue.held = false)
    (h : (runSoftlockBench.producer t p).take SoftLock.withAccess l done p = some (l', p', t')) :
    t'.work p' + (decide ¬ p.Dropping).toNat ≤ t.work p := by
  obtain ⟨act, htext, hP⟩ := producer_take h
  obtain ⟨left, pc⟩ := t
  unfold runSoftlockBench.producer at htext
  split at htext
  · split at htext
    · cases htext
    · rename_i left hleft
      cases htext
      cases hleft
      cases SoftLock.withAccess_cases hP with
      | guardFull _ | guardPend _ =>
          show 10 * left + _ + 1 ≤ 10 * (left + 1) + 0
          simp only [SoftProducer.round, ProducerPoint.toLeave, FullClosure.left,
            AllowPendOp.fullAccess]
          omega
  · split at htext <;> rename_i hpc <;> cases htext <;> cases hpc <;> cases hP <;>
      exact SoftProducer.work_le rfl (Nat.le_of_ble_eq_true rfl)
  · split at htext <;> rename_i hpc <;> cases htext <;> cases hpc <;> cases hP <;>
      exact SoftProducer.work_le rfl (Nat.le_of_ble_eq_true rfl)
  · rename_i hidle hready hpend
    cases htext
    cases p with
    | full a =>
        obtain ⟨a, a', d, ha, rfl, rfl, hf⟩ := SoftLock.withAccess_full hP
        cases ha
        change FullClosure at a a'
        replace hf : a.step l.content .next = some (d, a') := hf
        cases a with
        | ready ret => exact absurd rfl (hready ret)
        | submitDirect pc =>
            have hlt := submitDirect_left hqueue
            simp only [FullClosure.step] at hf
            split at hf <;> rename_i he <;> cases hf <;> rw [he] at hlt <;>
              simp only [Option.elim] at hlt <;>
              simp only [SoftProducer.work, SoftProducer.round, FullClosure.left,
                Phase.Dropping, not_false_eq_true, decide_true, Bool.toNat_true] <;> omega
        | _ => exact hp.elim
    | idle => exact absurd rfl hidle
    | pend a => exact absurd rfl (hpend a)
    | dropPend a =>
        cases hP
        exact Nat.le_refl _
    | dropSwap | dropRun r | dropStore | dropLoad | dropCas =>
        cases SoftLock.withAccess_cases hP <;> exact Nat.le_refl _

/-- A producer only stands still where it waits for the lock. -/
theorem softProducer_moves {t t' : SoftProducer} {p p' : DemoPhase} {l l' : SoftLock DemoInner}
    {done : Bool} (hp : p.Submits) (hlock : p = .dropCas → l.locked = false)
    (hqueue : p.locksQueue = true → l.content.queue.held = false)
    (h : (runSoftlockBench.producer t p).take SoftLock.withAccess l done p = some (l', p', t')) :
    (l', p', t') ≠ (l, p, t) := by
  intro heq
  cases heq
  by_cases hdrop : p.Dropping
  · have htext : runSoftlockBench.producer t p = .act .step t ∧ goOn p = .step ∧ p ≠ .idle := by
      cases p <;> first | exact ⟨rfl, rfl, by simp⟩ | exact hdrop.elim
    obtain ⟨htext, hgo, hidle⟩ := htext
    rw [htext] at h
    exact withAccess_moves (Todo.take_act h).1 hidle (Or.inl hgo.symm) hlock hqueue rfl
  · have hless := softProducer_work hp hqueue h
    rw [decide_eq_true hdrop, Bool.toNat_true] at hless
    omega

theorem softConsumer_moves {s : Scenario} {t t' : SoftConsumer} {p p' : DemoPhase}
    {l l' : SoftLock DemoInner} {done : Bool} (hlock : p = .dropCas → l.locked = false)
    (hqueue : p.locksQueue = true → l.content.queue.held = false)
    (h : (runSoftlockBench.consumer s t p).take SoftLock.withAccess l done p = some (l', p', t')) :
    (l', p', t') ≠ (l, p, t) := by
  intro heq
  cases heq
  by_cases hidle : p = .idle
  · subst hidle
    -- an access begins
    unfold runSoftlockBench.consumer at h
    dsimp only at h
    split at h
    · cases h
    · have hs := SoftLock.withAccess_cases (Todo.take_act h).1
      exact hs.from_idle rfl
  · exact absurd (consumer_toIdle hidle hlock hqueue h) (Nat.lt_irrefl _)

/-! ## So has the main thread -/

namespace SoftCheck

/-- The steps that are left of the text, and of the calls it makes. -/
def toReturn (p : DemoPhase) : SoftCheck → ℕ
  | .loadProcessed => if p.isIdle then 32 else 12
  | .loadPending => 11
  | .queueLen _ => 10
  | .loadStats _ _ => 6
  | .stats _ left _ => left.length + 2
  | .asserts _ _ => 1
  | .finished _ | .panicked _ => 0

theorem toReturn_eq {t : SoftCheck} (h : t ≠ .loadProcessed) (p p' : DemoPhase) :
    t.toReturn p' = t.toReturn p := by
  cases t <;> first | rfl | exact absurd rfl h

/-- The steps the main thread has left. -/
def work (l : SoftLock DemoInner) (p : DemoPhase) (t : SoftCheck) : ℕ :=
  2 * l.content.pendingSubmit + p.toEnd l.pending + t.toReturn p

end SoftCheck

/-- **Each step of the main thread gets closer to its return.** -/
theorem softCheck_work {s : Scenario} {t t' : SoftCheck} {p p' : DemoPhase}
    {l l' : SoftLock DemoInner} {done : Bool} (hright : t.Right s p)
    (hlock : ¬ p.Holding → l.locked = false)
    (hqueue : p.locksQueue = true → l.content.queue.held = false)
    (h : (runSoftlockBench.check s t p).take SoftLock.withAccess l done p = some (l', p', t')) :
    t'.work l' p' < t.work l p := by
  -- a method or `drop` goes on, or the closure is over
  have hon : ∀ {act : DemoAct}, SoftLock.withAccess l p act = some (l', p') → p ≠ .idle →
      act = goOn p ∨ (∃ u, act = .exit u) → t ≠ .loadProcessed → t'.toReturn p' ≤ t.toReturn p' →
      t'.work l' p' < t.work l p := by
    intro act hs hidle hact hne hle
    have hlt := withAccess_toEnd hs hidle hact (fun hp => hlock (by rw [hp]; exact id)) hqueue
    rw [SoftCheck.toReturn_eq hne p p'] at hle
    unfold SoftCheck.work
    omega
  have hcall : ∀ {ret : Option ℕ} {k : FullCall}, p = .full (FullClosure.ready ret) →
      SoftLock.withAccess l p (.full k) = some (l', p') →
      k.steps + t'.toReturn p' < t.toReturn p → t'.work l' p' < t.work l p := by
    rintro ret k rfl hs hlt
    have hend := (call_toEnd hs).1
    unfold SoftCheck.work
    rw [hend]
    show _ < 2 * l.content.pendingSubmit + (10 + 0 + 9 * l.pending.toNat) + _
    omega
  unfold runSoftlockBench.check at h
  split at h
  · split at h
    · split at h
      · cases h
        exact Nat.lt_succ_self _
      · split at h
        · cases h
          exact Nat.lt_succ_self _
        · split at h <;> cases h <;> exact Nat.lt_succ_self _
    · cases h
    · cases h
    · rename_i hasserts hfinished hpanicked
      obtain ⟨hs, rfl⟩ := Todo.take_act h
      -- it is at the start of its access
      have ht : t = .loadProcessed := by
        cases t with
        | loadProcessed => rfl
        | asserts checked read => exact absurd rfl (hasserts _ _)
        | finished read => exact absurd rfl (hfinished _)
        | panicked message => exact absurd rfl (hpanicked _)
        | loadPending => cases hright
        | queueLen processed => cases hright.2
        | loadStats processed pending => exact hright.2.2.elim
        | stats checked left read =>
            obtain ⟨v, hp⟩ := hright.2
            cases hp
      subst ht
      have hfree := hlock id
      simp only [SoftLock.withAccess, AccessGuard.guard, hfree, Bool.false_eq_true, if_false,
        Option.some.injEq, Prod.mk.injEq] at hs
      obtain ⟨rfl, rfl⟩ := hs
      show 2 * l.content.pendingSubmit + (10 + 0 + 9 * l.pending.toNat) + 12
        < 2 * l.content.pendingSubmit + 0 + 32
      have := Bool.toNat_le l.pending
      omega
  · split at h
    case h_6 =>
      obtain ⟨hs, rfl⟩ := Todo.take_act h
      exact hon hs (by intro hp; cases hp) (Or.inr ⟨false, rfl⟩) (by intro ht; cases ht)
        (Nat.le_succ 1)
    case h_7 hno _ _ _ _ _ =>
      obtain ⟨hs, rfl⟩ := Todo.take_act h
      exact hon hs (by intro hp; cases hp) (Or.inr ⟨false, rfl⟩) hno (Nat.le_refl _)
    all_goals
      obtain ⟨hs, rfl⟩ := Todo.take_act h
      refine hcall rfl hs ?_
      simp [SoftCheck.toReturn, FullCall.steps, Phase.isIdle]
  · exact absurd trivial hright.not_pendOnly
  · rename_i hidle hready hpend
    obtain ⟨hs, rfl⟩ := Todo.take_act h
    refine hon hs (fun hp => hidle hp) (Or.inl rfl) ?_ (Nat.le_refl _)
    rintro rfl
    rcases hright with hp | ⟨ret, hp⟩
    · exact hidle hp
    · exact hready ret hp

/-- The joins that are left. -/
def MainPoint.joins {φ : Type} (n : ℕ) : MainPoint φ → ℕ
  | .join k => n - k + 2
  | .joinConsumer => 1
  | .check _ => 0

namespace SoftBench

variable {s : Scenario}

/-- What the producers and the joins have left. -/
def work (c : SoftBench s) : ℕ := c.toDo SoftProducer.work + c.main.joins s.producers

theorem submits_reachable {c : SoftBench s} (h : Reachable (step s) (init s) c)
    (p : Fin s.producers) : (c.phase (.producer p)).Submits := by
  refine h.invariant (I := fun c : SoftBench s => (c.phase (.producer p)).Submits) ?_ ?_
  · show Phase.Submits .idle
    trivial
  intro c c' t _ ih hs
  cases Bench.step_cases hs with
  | @producer q l' p' k ht =>
      obtain ⟨act, htext, hP⟩ := producer_take ht
      by_cases hq : p = q
      · subst hq
        simpa using producer_submits ih htext hP
      · have hne : Tid.producer p ≠ Tid.producer q := fun he => hq (Tid.producer.inj he)
        simpa [Function.update_of_ne hne] using ih
  | consumer _ => simpa using ih
  | check _ _ => simpa using ih
  | joinProducer _ _ | storeDone _ _ | joinConsumer _ _ => exact ih

/-- With everybody else outside the lock is free, but for the one who has it. -/
theorem lone_unlocked {c : SoftBench s} (h : Reachable (step s) (init s) c) {t : Tid s.producers}
    (hothers : ∀ t', t' ≠ t → c.phase t' = .idle) (ht : ¬ (c.phase t).Holding) :
    c.inner.locked = false := by
  rw [← Bool.not_eq_true]
  intro hl
  obtain ⟨t', hhold⟩ := (owned_locked_iff (demo_owned (threads_reachable h))).mp hl
  by_cases heq : t' = t
  · subst heq
    exact ht hhold
  · rw [show c.threads.thread t' = .idle from hothers t' heq] at hhold
    exact hhold

theorem AllExited.idle {c : SoftBench s} (h : Reachable (step s) (init s) c) (hexit : AllExited c)
    (p : Fin s.producers) : c.phase (.producer p) = .idle :=
  (producer_exit ((softBooks_reachable h).ok p) (hexit p)).1

/-- With the producers over, all submissions have been made. -/
theorem AllExited.total {c : SoftBench s} (h : Reachable (step s) (init s) c) (hexit : AllExited c)
    {t : Tid s.producers} {a : FullClosure} (ha : c.phase t = .full a) :
    s.totalOps = c.inner.content.processed + c.inner.content.queue.items.length
      + c.inner.content.pendingSubmit + a.inHand.items := by
  have hbooks := softBooks_reachable h
  have htodo : c.toDo SoftProducer.toSubmit = 0 :=
    Bench.toDo_exited fun p => (producer_exit (hbooks.ok p) (hexit p)).2
  have hmade := hbooks.total
  have hhold : (c.threads.thread t).Holding := by
    show (c.phase t).Holding
    rw [ha]
    trivial
  have htotal := (owned_some (demo_owned (threads_reachable h)) hhold).2.total
  rw [show c.threads.thread t = .full a from ha] at htotal
  change c.inner.content.made = c.inner.content.processed + c.inner.content.queue.items.length
    + c.inner.content.pendingSubmit + a.inHand.items at htotal
  omega

/-- **Who moves changes something**, but for a guard that waits for the lock in `drop`. -/
theorem moves {c c' : SoftBench s} (h : Reachable (step s) (init s) c) {t : Tid s.producers}
    (hs : step s c t = some c') (hlock : c.phase t = .dropCas → c.inner.locked = false) :
    c' ≠ c := by
  have hqueue : (c.phase t).locksQueue = true → c.inner.content.queue.held = false :=
    queue_free (threads_reachable h)
  intro heq
  cases Bench.step_cases hs with
  | @producer p l' p' k ht =>
      refine softProducer_moves (submits_reachable h p) hlock hqueue ht ?_
      have hinner : l' = c.inner := congrArg Bench.inner heq
      have hphase := congrFun (congrArg Bench.phase heq) (.producer p)
      have hproducer := congrFun (congrArg Bench.producer heq) p
      dsimp only at hphase hproducer
      rw [Function.update_self] at hphase hproducer
      rw [hinner, hphase, hproducer]
  | @consumer l' p' k ht =>
      refine softConsumer_moves hlock hqueue ht ?_
      have hinner : l' = c.inner := congrArg Bench.inner heq
      have hphase := congrFun (congrArg Bench.phase heq) .consumer
      have hconsumer : k = c.consumer := congrArg Bench.consumer heq
      dsimp only at hphase
      rw [Function.update_self] at hphase
      rw [hinner, hphase, hconsumer]
  | @check pc l' p' k hm ht =>
      obtain ⟨hexit, hcons⟩ := (Bench.joined_reachable h).all hm
      have hothers : ∀ t, t ≠ Tid.main → c.phase t = .idle := by
        intro t ht
        cases t with
        | producer p => exact AllExited.idle h hexit p
        | consumer => exact (consumer_exit hcons).1
        | main => exact absurd rfl ht
      have hless := softCheck_work ((known_reachable h).right pc hm) (lone_unlocked h hothers)
        hqueue ht
      have hinner : l' = c.inner := congrArg Bench.inner heq
      have hphase := congrFun (congrArg Bench.phase heq) .main
      have hmain : MainPoint.check k = c.main := congrArg Bench.main heq
      dsimp only at hphase
      rw [Function.update_self] at hphase
      rw [hm] at hmain
      cases hmain
      rw [hinner, hphase] at hless
      exact absurd hless (Nat.lt_irrefl _)
  | @joinProducer p hm _ =>
      have hmain : MainPoint.join (p.val + 1) = c.main := congrArg Bench.main heq
      rw [hm, MainPoint.join.injEq] at hmain
      exact Nat.succ_ne_self _ hmain
  | storeDone hm _ | joinConsumer hm _ =>
      have hmain := congrArg Bench.main heq
      rw [hm] at hmain
      cases hmain

namespace LongRun

variable {cs : ℕ → SoftBench s} {ts : ℕ → Tid s.producers} {N : ℕ}

end LongRun

end SoftBench

end Hopter
