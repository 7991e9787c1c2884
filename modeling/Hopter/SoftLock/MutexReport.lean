import Hopter.SoftLock.MutexBench

/-!
# What the baseline reports

`MutexResult` says how often the producers and the consumer have taken the queue
mutex. Each counts before it takes it, so the counts are of rounds begun: the
producers begin one for each operation, and the consumer begins enough of them to get
through all items with its budget.
-/

namespace Hopter

open Conc

def MutexAct.producerLocks : MutexAct → ℕ
  | .addProducerLock => 1
  | _ => 0

def MutexAct.consumerLocks : MutexAct → ℕ
  | .addConsumerLock => 1
  | _ => 0

def MutexAct.counts : MutexAct → ℕ
  | .count => 1
  | _ => 0

/-- What an operation does to the counters. -/
structure CountStep (m m' : MutexInner) (act : MutexAct) : Prop where
  producer : m'.producerLockCount = m.producerLockCount + act.producerLocks
  consumer : m'.consumerLockCount = m.consumerLockCount + act.consumerLocks
  processed : m'.processed = m.processed + act.counts

theorem MutexInner.op_counts {m m' : MutexInner} {h h' : MutexHand} {act : MutexAct}
    (hs : MutexInner.op m h act = some (m', h')) : CountStep m m' act := by
  cases h with
  | out =>
      cases act <;> simp only [MutexInner.op, reduceCtorEq] at hs
      · cases hs
        exact ⟨rfl, rfl, rfl⟩
      · cases hs
        exact ⟨rfl, rfl, rfl⟩
      · split at hs <;> cases hs
        exact ⟨rfl, rfl, rfl⟩
  | held =>
      cases act <;> simp only [MutexInner.op, reduceCtorEq] at hs
      · cases hs
        exact ⟨rfl, rfl, rfl⟩
      · split at hs <;> cases hs <;> exact ⟨rfl, rfl, rfl⟩
      · cases hs
        exact ⟨rfl, rfl, rfl⟩
  | drawn id =>
      cases act <;> simp only [MutexInner.op, reduceCtorEq] at hs
      cases hs
      exact ⟨rfl, rfl, rfl⟩
  | popped =>
      cases act <;> simp only [MutexInner.op, reduceCtorEq] at hs
      cases hs
      exact ⟨rfl, rfl, rfl⟩

/-- The rounds a producer has not begun. -/
def MutexProducer.toLock (t : MutexProducer) (_ : MutexHand) : ℕ := t.left

theorem mutexProducer_locks {t : MutexProducer} {h : MutexHand} :
    (∃ act t', runMutexBench.producer t h = .act act t' ∧ act.consumerLocks = 0 ∧ act.counts = 0
        ∧ ∀ h', t'.toLock h' + act.producerLocks = t.toLock h)
      ∨ (runMutexBench.producer t h = .exit ∧ t.toLock h = 0) := by
  obtain ⟨left, pc⟩ := t
  cases pc with
  | start =>
      cases left with
      | zero => exact Or.inr ⟨rfl, rfl⟩
      | succ left => exact Or.inl ⟨_, _, rfl, rfl, rfl, fun _ => rfl⟩
  | lock | draw | push | unlock => exact Or.inl ⟨_, _, rfl, rfl, rfl, fun _ => rfl⟩

/-- How many items the consumer may still count before it takes the mutex again. -/
def MutexConsumer.allowed (s : Scenario) (h : MutexHand) : MutexConsumer → ℕ
  | .lock => s.consumerBudget
  | .loop k => k
  | .popped k => k + h.uncounted
  | _ => 0

/-- **One step of the consumer**: it counts no more than its budget each time it takes the mutex. -/
theorem mutexConsumer_counts {s : Scenario} {t t' : MutexConsumer} {h h' : MutexHand}
    {m m' : MutexInner} {done : Bool}
    (hle : m.processed + t.allowed s h ≤ s.consumerBudget * m.consumerLockCount)
    (hs : (runMutexBench.consumer s t h).take MutexInner.op m done h = some (m', h', t')) :
    m'.processed + t'.allowed s h' ≤ s.consumerBudget * m'.consumerLockCount
      ∧ m'.producerLockCount = m.producerLockCount := by
  cases t with
  | start =>
      obtain ⟨hop, rfl⟩ := Todo.take_act hs
      obtain ⟨hp, hc, hn⟩ := MutexInner.op_counts hop
      refine ⟨?_, hp⟩
      rw [hc, hn]
      show m.processed + 0 + s.consumerBudget ≤ s.consumerBudget * (m.consumerLockCount + 1)
      rw [Nat.mul_add, Nat.mul_one]
      replace hle : m.processed + 0 ≤ _ := hle
      omega
  | lock =>
      obtain ⟨hop, rfl⟩ := Todo.take_act hs
      obtain ⟨hp, hc, hn⟩ := MutexInner.op_counts hop
      refine ⟨?_, hp⟩
      rw [hc, hn]
      exact hle
  | loop k =>
      cases k with
      | zero =>
          cases hs
          exact ⟨hle, rfl⟩
      | succ k =>
          obtain ⟨hop, rfl⟩ := Todo.take_act hs
          obtain ⟨hp, hc, hn⟩ := MutexInner.op_counts hop
          refine ⟨?_, hp⟩
          rw [hc, hn]
          have hone : h'.uncounted ≤ 1 := by cases h' <;> simp [MutexHand.uncounted]
          replace hle : m.processed + (k + 1) ≤ _ := hle
          show m.processed + 0 + (k + h'.uncounted) ≤ s.consumerBudget * m.consumerLockCount
          omega
  | popped k =>
      cases h with
      | popped =>
          obtain ⟨hop, rfl⟩ := Todo.take_act hs
          obtain ⟨hp, hc, hn⟩ := MutexInner.op_counts hop
          refine ⟨?_, hp⟩
          rw [hc, hn]
          replace hle : m.processed + (k + 1) ≤ _ := hle
          show m.processed + 1 + k ≤ s.consumerBudget * m.consumerLockCount
          omega
      | out | held | drawn id =>
          cases hs
          refine ⟨?_, rfl⟩
          show m.processed + 0 ≤ _
          omega
  | testProcessed processed =>
      unfold runMutexBench.consumer at hs
      dsimp only at hs
      split at hs
      · obtain ⟨hop, rfl⟩ := Todo.take_act hs
        obtain ⟨hp, hc, hn⟩ := MutexInner.op_counts hop
        refine ⟨?_, hp⟩
        rw [hc, hn]
        exact hle
      · cases hs
        refine ⟨?_, rfl⟩
        cases done <;> exact hle
  | testEmpty =>
      cases hs
      refine ⟨?_, rfl⟩
      have hzero :
          MutexConsumer.allowed s h (if m.queue.items.isEmpty = true then .leave else .again)
            = 0 := by
        split <;> rfl
      rw [hzero]
      exact hle
  | again | leave =>
      obtain ⟨hop, rfl⟩ := Todo.take_act hs
      obtain ⟨hp, hc, hn⟩ := MutexInner.op_counts hop
      refine ⟨?_, hp⟩
      rw [hc, hn]
      exact hle
  | exited => cases hs

/-- What the main thread has read of the counters. -/
def MutexCheck.ReadsRight (m : MutexInner) : MutexCheck → Prop
  | .loadConsumerLocks producerLocks => producerLocks = m.producerLockCount
  | .finished producerLocks consumerLocks =>
      producerLocks = m.producerLockCount ∧ consumerLocks = m.consumerLockCount
  | _ => True

theorem mutexCheck_counts {s : Scenario} {t t' : MutexCheck} {h h' : MutexHand}
    {m m' : MutexInner} {done : Bool}
    (hs : (runMutexBench.check s t h).take MutexInner.op m done h = some (m', h', t'))
    (hread : t.ReadsRight m) :
    t'.ReadsRight m' ∧ m'.producerLockCount = m.producerLockCount
      ∧ m'.consumerLockCount = m.consumerLockCount ∧ m'.processed = m.processed := by
  cases t with
  | lock processed | unlock processed queueLeft =>
      obtain ⟨hop, rfl⟩ := Todo.take_act hs
      obtain ⟨hp, hc, hn⟩ := MutexInner.op_counts hop
      exact ⟨trivial, hp, hc, hn⟩
  | loadProcessed | len processed =>
      cases hs
      exact ⟨trivial, rfl, rfl, rfl⟩
  | asserts processed queueLeft =>
      unfold runMutexBench.check at hs
      dsimp only at hs
      split at hs
      · cases hs
        exact ⟨trivial, rfl, rfl, rfl⟩
      · split at hs
        · cases hs
          exact ⟨trivial, rfl, rfl, rfl⟩
        · cases hs
          exact ⟨rfl, rfl, rfl, rfl⟩
  | loadConsumerLocks producerLocks =>
      cases hs
      exact ⟨⟨hread, rfl⟩, rfl, rfl, rfl⟩
  | finished producerLocks consumerLocks => cases hs
  | panicked message => cases hs

namespace MutexBench

variable {s : Scenario}

structure LockBooks (c : MutexBench s) : Prop where
  producer : c.inner.producerLockCount + c.toDo MutexProducer.toLock = s.totalOps
  consumer : c.inner.processed + c.consumer.allowed s (c.phase .consumer)
    ≤ s.consumerBudget * c.inner.consumerLockCount
  read : ∀ pc, c.main = .check pc → pc.ReadsRight c.inner

theorem lockBooks_step {c c' : MutexBench s} {t : Tid s.producers}
    (hr : Reachable (step s) (init s) c) (h : LockBooks c) (hs : step s c t = some c') :
    LockBooks c' := by
  obtain ⟨hproducer, hconsumer, hread⟩ := h
  have hjoined := Bench.joined_reachable hr
  cases Bench.step_cases hs with
  | @producer p m' h' k ht =>
      have hsum := @Bench.toDo_producer _ _ _ _ _ _ MutexProducer.toLock c p m' h' k
      rcases @mutexProducer_locks (c.producer p) (c.phase (.producer p)) with
        ⟨act, t', htext, hlocks, hcounts, hleft⟩ | ⟨htext, -⟩
      · rw [show (runMutexBench s).producer = runMutexBench.producer from rfl, htext] at ht
        obtain ⟨hop, rfl⟩ := Todo.take_act ht
        obtain ⟨hp, hc, hn⟩ := MutexInner.op_counts hop
        have hleft := hleft h'
        refine ⟨?_, ?_, fun pc hpc => ?_⟩
        · show m'.producerLockCount + _ = _
          omega
        · show m'.processed + _ ≤ s.consumerBudget * m'.consumerLockCount
          rw [hn, hc, hcounts, hlocks]
          exact hconsumer
        · have hexit := (hjoined.all hpc).1 p
          rw [Bench.Exited, show (runMutexBench s).producer = runMutexBench.producer from rfl,
            htext] at hexit
          cases hexit
      · rw [show (runMutexBench s).producer = runMutexBench.producer from rfl, htext] at ht
        cases ht
  | @consumer m' h' k ht =>
      obtain ⟨hle, hp⟩ := mutexConsumer_counts hconsumer ht
      refine ⟨?_, ?_, fun pc hpc => ?_⟩
      · rw [Bench.toDo_other (fun _ he => by cases he), hp]
        exact hproducer
      · show m'.processed + k.allowed s (Function.update c.phase .consumer h' .consumer) ≤ _
        rw [Function.update_self]
        exact hle
      · have hexit := (hjoined.all hpc).2
        rw [Bench.ConsumerExited] at hexit
        rw [hexit] at ht
        cases ht
  | @check pc m' h' k hm ht =>
      obtain ⟨hright, hp, hc, hn⟩ := mutexCheck_counts ht (hread pc hm)
      refine ⟨?_, ?_, fun pc hpc => ?_⟩
      · rw [Bench.toDo_other (fun _ he => by cases he), hp]
        exact hproducer
      · show m'.processed + _ ≤ s.consumerBudget * m'.consumerLockCount
        rw [hn, hc]
        exact hconsumer
      · cases hpc
        exact hright
  | joinProducer _ _ | storeDone _ _ =>
      exact ⟨hproducer, hconsumer, fun pc hpc => by cases hpc⟩
  | joinConsumer _ _ =>
      refine ⟨hproducer, hconsumer, fun pc hpc => ?_⟩
      cases hpc
      trivial

theorem lockBooks_reachable {c : MutexBench s} (h : Reachable (step s) (init s) c) :
    LockBooks c := by
  refine h.invariant (I := LockBooks) ?_ (fun hr ih hs => lockBooks_step hr ih hs)
  refine ⟨?_, Nat.zero_le _, fun pc hpc => by cases hpc⟩
  unfold init
  rw [Bench.toDo_init]
  exact Nat.zero_add _

end MutexBench

/-- **The report of the baseline is consistent.** When `run_mutex_bench` returns, whatever the
schedule was, the producers have locked the queue once for each operation, and the consumer often
enough for its budget. So it returns with a budget of zero only if there was nothing to do. -/
theorem mutex_report_consistent {s : Scenario} {c : MutexBench s}
    (h : Reachable (MutexBench.step s) (MutexBench.init s) c) {producerLocks consumerLocks : ℕ}
    (hm : c.main = .check (.finished producerLocks consumerLocks)) :
    producerLocks = s.totalOps ∧ s.totalOps ≤ s.consumerBudget * consumerLocks
      ∧ (s.consumerBudget = 0 → s.totalOps = 0) := by
  obtain ⟨hproducer, hconsumer, hread⟩ := MutexBench.lockBooks_reachable h
  obtain ⟨rfl, rfl⟩ := hread _ hm
  obtain ⟨hexit, -⟩ := (Bench.joined_reachable h).all hm
  have hnone : c.toDo MutexProducer.toLock = 0 := by
    refine Bench.toDo_exited fun p => ?_
    rcases @mutexProducer_locks (c.producer p) (c.phase (.producer p)) with
      ⟨act, t', htext, -⟩ | ⟨-, hzero⟩
    · have hp := hexit p
      rw [Bench.Exited, show (runMutexBench s).producer = runMutexBench.producer from rfl,
        htext] at hp
      cases hp
    · exact hzero
  have hprocessed := (MutexBench.main_finds h (MutexBench.known_reachable h) hm).processed
  refine ⟨by omega, by omega, fun hbudget => ?_⟩
  rw [hbudget, Nat.zero_mul] at hconsumer
  omega

/-- A budget of 2 for three operations. -/
theorem mutex_report_consistent_run :
    ∃ c, exec (MutexBench.step ⟨1, 3, 2⟩) (MutexBench.init ⟨1, 3, 2⟩)
        (List.replicate 15 (.producer 0) ++ List.replicate 2 .main ++ List.replicate 17 .consumer
          ++ List.replicate 7 .main) = some c
      ∧ c.main = .check (.finished 3 2) ∧ 3 ≤ 2 * 2 := by
  have hmain : ((exec (MutexBench.step ⟨1, 3, 2⟩) (MutexBench.init ⟨1, 3, 2⟩)
      (List.replicate 15 (.producer 0) ++ List.replicate 2 .main ++ List.replicate 17 .consumer
        ++ List.replicate 7 .main)).map fun c => c.main) = some (.check (.finished 3 2)) := rfl
  obtain ⟨c, hrun, hm⟩ := Option.map_eq_some_iff.mp hmain
  exact ⟨c, hrun, hm, (mutex_report_consistent ⟨_, hrun⟩ hm).2.1⟩

end Hopter
