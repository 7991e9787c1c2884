import Hopter.SoftLock.AccessEnds
import Hopter.SoftLock.SoftBenchEnd

/-!
# The consumer, run alone

With the producers over and the main thread waiting the consumer has the lock to itself.
Its access then takes everything that is pended, so the queue holds all that is left of
the submissions when `process_some` looks at it. If nothing is left, `processed` is
`total_ops`, and the consumer leaves.
-/

namespace Hopter

open Conc

namespace SoftConsumer

/-- The steps that are left of the closure's own, and of the calls it makes. -/
def toLeave (budget : ℕ) : SoftConsumer → ℕ
  | .loadPendingBefore => 3 * budget + 18
  | .runPendedOp => 3 * budget + 17
  | .processSome => 3 * budget + 11
  | .loadProcessed => 7
  | .testProcessed => 6
  | .loadPending _ => 5
  | .queueLen _ => 4
  | .decide _ _ | .leave _ => 0

/-- The steps that are left of the access. -/
def toIdle (budget : ℕ) (l : SoftLock DemoInner) (p : DemoPhase) (t : SoftConsumer) : ℕ :=
  2 * l.content.pendingSubmit + p.toEnd l.pending + if p.isFull then t.toLeave budget else 0

end SoftConsumer

/-- The closure goes on with a call, and is closer to its end. -/
theorem call_toIdle {budget : ℕ} {t t' : SoftConsumer} {l l' : SoftLock DemoInner} {p' : DemoPhase}
    {ret : Option ℕ} {k : FullCall}
    (hs : SoftLock.withAccess l (.full (FullClosure.ready ret)) (.full k) = some (l', p'))
    (hlt : k.steps + t'.toLeave budget < t.toLeave budget) :
    t'.toIdle budget l' p' < t.toIdle budget l (.full (FullClosure.ready ret)) := by
  obtain ⟨hend, hfull⟩ := call_toEnd hs
  unfold SoftConsumer.toIdle
  rw [hend, if_pos hfull]
  show _ < 2 * l.content.pendingSubmit + (10 + 0 + 9 * l.pending.toNat) + t.toLeave budget
  omega

/-- **Each step of the consumer gets closer to the end of its access.** -/
theorem consumer_toIdle {s : Scenario} {t t' : SoftConsumer} {p p' : DemoPhase}
    {l l' : SoftLock DemoInner} {done : Bool} (hidle : p ≠ .idle)
    (hlock : p = .dropCas → l.locked = false)
    (hqueue : p.locksQueue = true → l.content.queue.held = false)
    (h : (runSoftlockBench.consumer s t p).take SoftLock.withAccess l done p = some (l', p', t')) :
    t'.toIdle s.consumerBudget l' p' < t.toIdle s.consumerBudget l p := by
  -- the closure is over, or a method or `drop` goes on
  have hon : ∀ {act : DemoAct}, SoftLock.withAccess l p act = some (l', p') →
      act = goOn p ∨ (∃ u, act = .exit u) →
      t'.toLeave s.consumerBudget ≤ t.toLeave s.consumerBudget →
      t'.toIdle s.consumerBudget l' p' < t.toIdle s.consumerBudget l p := by
    intro act hs hact hle
    have hlt := withAccess_toEnd hs hidle hact hlock hqueue
    have hfull : p'.isFull = true → p.isFull = true := by
      intro hfull
      cases SoftLock.withAccess_cases hs <;> first | rfl | exact absurd rfl hidle | cases hfull
    unfold SoftConsumer.toIdle
    by_cases hp' : p'.isFull = true
    · rw [if_pos hp', if_pos (hfull hp')]
      omega
    · rw [if_neg hp']
      omega
  unfold runSoftlockBench.consumer at h
  split at h
  · exact absurd rfl hidle
  · split at h
    case h_1 | h_2 | h_3 | h_4 | h_6 | h_7 =>
      obtain ⟨hs, rfl⟩ := Todo.take_act h
      refine call_toIdle hs ?_
      simp only [SoftConsumer.toLeave, FullCall.steps]
      omega
    case h_5 =>
      split at h
      · obtain ⟨hs, rfl⟩ := Todo.take_act h
        exact hon hs (Or.inr ⟨false, rfl⟩) (Nat.zero_le _)
      · cases h
        exact Nat.add_lt_add_left (Nat.lt_succ_self 5) _
    case h_8 =>
      obtain ⟨hs, rfl⟩ := Todo.take_act h
      exact hon hs (Or.inr ⟨false, rfl⟩) (Nat.zero_le _)
    case h_9 =>
      obtain ⟨hs, rfl⟩ := Todo.take_act h
      exact hon hs (Or.inr ⟨false, rfl⟩) (Nat.le_refl _)
  · obtain ⟨hs, rfl⟩ := Todo.take_act h
    exact hon hs (Or.inr ⟨false, rfl⟩) (Nat.zero_le _)
  · obtain ⟨hs, rfl⟩ := Todo.take_act h
    exact hon hs (Or.inl rfl) (Nat.le_refl _)

/-! ## Round after round -/

/-- A consumer alone with the lock. -/
structure ConsumerRun (s : Scenario) (l : ℕ → SoftLock DemoInner) (done : ℕ → Bool)
    (p : ℕ → DemoPhase) (t : ℕ → SoftConsumer) : Prop where
  step : ∀ n,
    (runSoftlockBench.consumer s (t n) (p n)).take SoftLock.withAccess (l n) (done n) (p n)
      = some (l (n + 1), p (n + 1), t (n + 1))
  lock : ∀ n, ¬ (p n).Holding → (l n).locked = false
  queue : ∀ n, (p n).locksQueue = true → (l n).content.queue.held = false
  /-- Every submission has been made. -/
  total : ∀ n a, p n = .full a → s.totalOps = (l n).content.processed
    + (l n).content.queue.items.length + (l n).content.pendingSubmit
    + (FullClosure.inHand a).items

namespace ConsumerRun

variable {s : Scenario} {l : ℕ → SoftLock DemoInner} {done : ℕ → Bool} {p : ℕ → DemoPhase}
  {t : ℕ → SoftConsumer}

theorem later (h : ConsumerRun s l done p t) (k : ℕ) :
    ConsumerRun s (fun n => l (k + n)) (fun n => done (k + n)) (fun n => p (k + n))
      (fun n => t (k + n)) :=
  ⟨fun n => h.step (k + n), fun n => h.lock (k + n), fun n => h.queue (k + n),
    fun n => h.total (k + n)⟩

theorem act (h : ConsumerRun s l done p t) {n : ℕ} {q : DemoPhase} {a : DemoAct} {t' : SoftConsumer}
    (hp : p n = q) (htext : runSoftlockBench.consumer s (t n) q = .act a t') :
    SoftLock.withAccess (l n) q a = some (l (n + 1), p (n + 1)) ∧ t (n + 1) = t' := by
  have hs := h.step n
  rw [hp, htext] at hs
  exact Todo.take_act hs

/-- A step of the closure, or of a method it called. -/
theorem full (h : ConsumerRun s l done p t) {n : ℕ} {a : FullClosure} {k : FullCall}
    {t' : SoftConsumer} (hp : p n = .full a)
    (htext : runSoftlockBench.consumer s (t n) (.full a) = .act (.full k) t') :
    ∃ a', a.step (l n).content k = some ((l (n + 1)).content, a') ∧ p (n + 1) = .full a'
      ∧ t (n + 1) = t' := by
  obtain ⟨hs, ht⟩ := h.act hp htext
  obtain ⟨a, a', d, ha, hp', hl, hf⟩ := SoftLock.withAccess_full hs
  cases ha
  refine ⟨a', ?_, hp', ht⟩
  rw [hl]
  exact hf

theorem toIdle_lt (h : ConsumerRun s l done p t) {n : ℕ} (hn : p n ≠ .idle) :
    (t (n + 1)).toIdle s.consumerBudget (l (n + 1)) (p (n + 1))
      < (t n).toIdle s.consumerBudget (l n) (p n) := by
  refine consumer_toIdle hn (fun hp => h.lock n ?_) (h.queue n) (h.step n)
  rw [hp]
  exact id

/-- Access after access. -/
theorem starts (h : ConsumerRun s l done p t) : ∃ n, p n = .idle := by
  obtain ⟨n, -, hn⟩ := descends (σ := fun n => (l n, p n, t n)) (k := 0)
    (Q := fun c : SoftLock DemoInner × DemoPhase × SoftConsumer => c.2.1 = .idle)
    (fun c => c.2.2.toIdle s.consumerBudget c.1 c.2.1) (fun n _ hn => h.toIdle_lt hn)
  exact ⟨n, hn⟩

/-- `drop` does not touch the text, and ends. -/
theorem drop_ends (h : ConsumerRun s l done p t) {n : ℕ} (hn : (p n).Dropping) :
    ∃ m, p m = .idle ∧ t m = t n := by
  generalize hk : (t n).toIdle s.consumerBudget (l n) (p n) = k
  induction k using Nat.strong_induction_on generalizing n with
  | _ k ih =>
      have hidle : p n ≠ .idle := by
        intro hp
        rw [hp] at hn
        exact hn
      have htext : runSoftlockBench.consumer s (t n) (p n) = .act .step (t n) := by
        generalize p n = q at hn
        cases q <;> first | rfl | exact hn.elim
      obtain ⟨hs, ht⟩ := h.act rfl htext
      have hlt := h.toIdle_lt hidle
      have hnext : (p (n + 1)).Dropping ∨ p (n + 1) = .idle := by
        have hstep := SoftLock.withAccess_cases hs
        generalize p n = q, l n = x, p (n + 1) = q', l (n + 1) = x' at hn hstep
        cases hstep <;> first | exact Or.inr rfl | exact Or.inl trivial | exact hn.elim
      rcases hnext with hdrop | hend
      · obtain ⟨m, hm, htm⟩ := ih _ (hk ▸ hlt) hdrop rfl
        exact ⟨m, hm, htm.trans ht⟩
      · exact ⟨n + 1, hend, ht⟩

/-- What `run_pended_op` takes it puts into the queue. -/
theorem drains (h : ConsumerRun s l done p t) {n : ℕ} {r : RunPended}
    (hp : p n = .full (FullClosure.runPendedOp r)) (hr : r ≠ .swap)
    (hpend : (l n).content.pendingSubmit = 0) :
    ∃ m, p m = .full (FullClosure.ready none) ∧ t m = t n ∧ (l m).content.pendingSubmit = 0 := by
  generalize hk : r.left = k
  induction k using Nat.strong_induction_on generalizing n r with
  | _ k ih =>
      have htext : runSoftlockBench.consumer s (t n) (.full (FullClosure.runPendedOp r))
          = .act (.full FullCall.next) (t n) := rfl
      obtain ⟨a', hf, hp', ht⟩ := h.full hp htext
      have hle := (FullClosure.step_effect hf).pendingSubmit_le
      have hzero : (l (n + 1)).content.pendingSubmit = 0 := by omega
      simp only [FullClosure.step] at hf
      split at hf <;> rename_i d r' he <;> rw [Option.some.injEq, Prod.mk.injEq] at hf <;>
        obtain ⟨-, rfl⟩ := hf
      · have hqueue : r.locksQueue = true → (l n).content.queue.held = false := by
          intro hlocks
          refine h.queue n ?_
          rw [hp]
          cases r <;> first | rfl | cases hlocks
        obtain ⟨hswap, hleft⟩ := runPendedOp_left he hqueue
        have hless := hleft hr
        obtain ⟨m, hm, htm, hzm⟩ := ih r'.left (by omega) hp' hswap hzero rfl
        exact ⟨m, hm, htm.trans ht, hzm⟩
      · exact ⟨n + 1, hp', ht, hzero⟩

theorem processed_le (h : ConsumerRun s l done p t) {n m : ℕ} (hnm : n ≤ m) :
    (l n).content.processed ≤ (l m).content.processed := by
  induction m, hnm using Nat.le_induction with
  | base => exact Nat.le_refl _
  | succ m hm ih => exact ih.trans (take_kept (h.step m)).1

/-- With the lock free the next access gets to its `process_some`, and by then nothing is pended. -/
theorem opens (h : ConsumerRun s l done p t) {n : ℕ} (hp : p n = .idle) :
    ∃ m, p m = .full (FullClosure.processSome (.lock s.consumerBudget)) ∧ t m = .loadProcessed
      ∧ (l m).content.pendingSubmit = 0 := by
  have hbegin : runSoftlockBench.consumer s (t n) .idle = .act .step .loadPendingBefore := by
    have hstep := h.step n
    rw [hp] at hstep
    generalize t n = c at hstep
    cases c with
    | leave again =>
        cases again with
        | false => cases hstep
        | true => rfl
    | _ => rfl
  obtain ⟨hs, ht₁⟩ := h.act hp hbegin
  have hfree : (l n).locked = false := by
    refine h.lock n ?_
    rw [hp]
    exact id
  simp only [SoftLock.withAccess, AccessGuard.guard, hfree, Bool.false_eq_true, if_false,
    Option.some.injEq, Prod.mk.injEq] at hs
  have hp₁ : p (n + 1) = .full (FullClosure.ready none) := hs.2.symm
  -- it reads `pending_before`, and calls `run_pended_op`
  obtain ⟨a₂, hf₂, hp₂, ht₂⟩ := h.full (k := .load .pendingSubmit) hp₁ (by rw [ht₁]; rfl)
  simp only [FullClosure.step, Option.some.injEq, Prod.mk.injEq] at hf₂
  obtain ⟨-, rfl⟩ := hf₂
  obtain ⟨a₃, hf₃, hp₃, ht₃⟩ := h.full (k := .runPendedOp) hp₂ (by rw [ht₂]; rfl)
  simp only [FullClosure.step, Option.some.injEq, Prod.mk.injEq] at hf₃
  obtain ⟨-, rfl⟩ := hf₃
  obtain ⟨a₄, hf₄, hp₄, ht₄⟩ := h.full (k := .next) hp₃ rfl
  rw [ht₃] at ht₄
  have hdrained : ∃ m ret, p m = .full (FullClosure.ready ret) ∧ t m = .processSome
      ∧ (l m).content.pendingSubmit = 0 := by
    by_cases hnone : (l (n + 1 + 1 + 1)).content.pendingSubmit = 0
    · simp only [FullClosure.step, InnerFullAccessor.runPendedOp, if_pos hnone, Option.some.injEq,
        Prod.mk.injEq] at hf₄
      obtain ⟨hl, rfl⟩ := hf₄
      exact ⟨_, none, hp₄, ht₄, by rw [← hl]⟩
    · simp only [FullClosure.step, InnerFullAccessor.runPendedOp, if_neg hnone, Option.some.injEq,
        Prod.mk.injEq] at hf₄
      obtain ⟨hl, rfl⟩ := hf₄
      obtain ⟨m, hm, htm, hzm⟩ := h.drains hp₄ (by simp) (by rw [← hl])
      exact ⟨m, none, hm, htm.trans ht₄, hzm⟩
  obtain ⟨m, ret, hm, htm, hzm⟩ := hdrained
  obtain ⟨a, hf, hp', ht'⟩ := h.full (k := .processSome s.consumerBudget) hm (by rw [htm]; rfl)
  simp only [FullClosure.step, Option.some.injEq, Prod.mk.injEq] at hf
  obtain ⟨hl, rfl⟩ := hf
  refine ⟨m + 1, hp', ht', ?_⟩
  rw [← hl]
  exact hzm

/-- With nothing pended the queue holds all that is left. -/
theorem looks (h : ConsumerRun s l done p t) {n : ℕ}
    (hp : p n = .full (FullClosure.processSome (.lock s.consumerBudget)))
    (hpend : (l n).content.pendingSubmit = 0) :
    p (n + 1) = .full (FullClosure.processSome (.loop s.consumerBudget 0)) ∧ t (n + 1) = t n
      ∧ s.totalOps = (l (n + 1)).content.processed + (l (n + 1)).content.queue.items.length := by
  have hfree := h.queue n (by rw [hp]; rfl)
  obtain ⟨a, hf, hp', ht'⟩ := h.full (k := .next) hp rfl
  simp only [FullClosure.step, InnerFullAccessor.processSome, hfree, Bool.false_eq_true, if_false,
    Option.some.injEq, Prod.mk.injEq] at hf
  obtain ⟨hl, rfl⟩ := hf
  have hzero : (l (n + 1)).content.pendingSubmit = 0 := by
    rw [← hl]
    exact hpend
  have htotal := h.total _ _ hp'
  rw [hzero] at htotal
  exact ⟨hp', ht', htotal⟩

/-- An item that is there is processed. -/
theorem pops (h : ConsumerRun s l done p t) {n budget k : ℕ} (hbudget : 0 < budget)
    (hp : p n = .full (FullClosure.processSome (.loop budget k)))
    (hq : (l n).content.queue.items ≠ []) :
    (l (n + 2)).content.processed = (l n).content.processed + 1
      ∧ (l (n + 2)).content.processed ≤ s.totalOps := by
  obtain ⟨id, rest, hitems⟩ := List.exists_cons_of_ne_nil hq
  obtain ⟨a₁, hf₁, hp₁, -⟩ := h.full (k := .next) hp rfl
  simp only [FullClosure.step, InnerFullAccessor.processSome, if_pos hbudget, hitems,
    Option.some.injEq, Prod.mk.injEq] at hf₁
  obtain ⟨hl₁, rfl⟩ := hf₁
  obtain ⟨a₂, hf₂, hp₂, -⟩ := h.full (k := .next) hp₁ rfl
  simp only [FullClosure.step, InnerFullAccessor.processSome, Option.some.injEq,
    Prod.mk.injEq] at hf₂
  obtain ⟨hl₂, rfl⟩ := hf₂
  have htotal := h.total _ _ hp₂
  refine ⟨?_, ?_⟩
  · show (l (n + 1 + 1)).content.processed = _
    rw [← hl₂, ← hl₁]
  · show (l (n + 1 + 1)).content.processed ≤ _
    omega

/-- From an empty queue the consumer goes on to read `processed`. -/
theorem passes (h : ConsumerRun s l done p t) {n budget k : ℕ}
    (hp : p n = .full (FullClosure.processSome (.loop budget k)))
    (hq : (l n).content.queue.items = []) :
    p (n + 2) = .full (FullClosure.ready (some k)) ∧ t (n + 2) = t n := by
  obtain ⟨a₁, hf₁, hp₁, ht₁⟩ := h.full (k := .next) hp rfl
  simp only [FullClosure.step, InnerFullAccessor.processSome, hq, ite_self,
    Option.some.injEq, Prod.mk.injEq] at hf₁
  obtain ⟨-, rfl⟩ := hf₁
  obtain ⟨a₂, hf₂, hp₂, ht₂⟩ := h.full (k := .next) hp₁ rfl
  simp only [FullClosure.step, InnerFullAccessor.processSome, Option.some.injEq,
    Prod.mk.injEq] at hf₂
  obtain ⟨-, rfl⟩ := hf₂
  exact ⟨hp₂, ht₂.trans ht₁⟩

/-- With everything processed it leaves. -/
theorem leaves (h : ConsumerRun s l done p t) {n : ℕ} {ret : Option ℕ}
    (hp : p n = .full (FullClosure.ready ret)) (ht : t n = .loadProcessed)
    (hall : s.totalOps ≤ (l n).content.processed) : False := by
  obtain ⟨a₁, hf₁, hp₁, ht₁⟩ := h.full (k := .load .processed) hp (by rw [ht]; rfl)
  simp only [FullClosure.step, DemoInner.load, Option.some.injEq, Prod.mk.injEq] at hf₁
  obtain ⟨-, rfl⟩ := hf₁
  have hexit : runSoftlockBench.consumer s (t (n + 1))
      (.full (FullClosure.ready (some (l n).content.processed)))
        = .act (.exit false) (.leave false) := by
    rw [ht₁]
    simp only [runSoftlockBench.consumer]
    rw [if_pos hall]
  obtain ⟨hs, ht₂⟩ := h.act hp₁ hexit
  simp only [SoftLock.withAccess, AllowPendOp.fullReady, FullClosure.isReady, if_true,
    Option.some.injEq, Prod.mk.injEq] at hs
  have hdrop : (p (n + 1 + 1)).Dropping := by
    rw [← hs.2]
    trivial
  obtain ⟨m, hm, htm⟩ := h.drop_ends hdrop
  have hstep := h.step m
  rw [hm, htm, ht₂] at hstep
  cases hstep

/-- **Each access processes something, or is the last.** -/
theorem absurd (h : ConsumerRun s l done p t) (hbudget : 0 < s.consumerBudget) : False := by
  generalize hk : s.totalOps - (l 0).content.processed = k
  induction k using Nat.strong_induction_on generalizing l done p t with
  | _ k ih =>
      obtain ⟨n, hn⟩ := h.starts
      obtain ⟨m, hm, htm, hzm⟩ := h.opens hn
      obtain ⟨hloop, htext, htotal⟩ := h.looks hm hzm
      by_cases hq : (l (m + 1)).content.queue.items = []
      · obtain ⟨hready, htext'⟩ := h.passes hloop hq
        refine h.leaves hready (htext'.trans (htext.trans htm)) ?_
        have hmono := h.processed_le (Nat.le_add_right (m + 1) 2)
        rw [hq] at htotal
        exact htotal.trans_le hmono
      · obtain ⟨hmore, hbound⟩ := h.pops hbudget hloop hq
        have hmono := h.processed_le (Nat.zero_le (m + 1))
        refine ih _ ?_ (h.later (m + 1 + 2)) rfl
        show s.totalOps - (l (m + 1 + 2)).content.processed < k
        omega

end ConsumerRun

end Hopter
