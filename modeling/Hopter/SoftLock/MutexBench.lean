import Hopter.Lib.Owner
import Hopter.Lib.TicketQueue
import Hopter.SoftLock.Harness
import Hopter.SoftLock.Demo

/-!
# `run_mutex_bench`

The baseline: producers append under the queue mutex, the consumer pops under
it, and there is nothing to drain. The accounts are those of the soft lock with
less to account for, and the checks at the end hold for the same reason.
-/

namespace Hopter

open Conc

/-- `struct MutexInner`, and the ids popped so far, which no code reads. -/
structure MutexInner where
  queue : QueueMutex
  nextId : Nat
  processed : Nat
  producerLockCount : Nat
  consumerLockCount : Nat
  popped : List Nat

/-- `MutexInner::new`. -/
def MutexInner.new : MutexInner where
  queue := { items := [], held := false }
  nextId := 1
  processed := 0
  producerLockCount := 0
  consumerLockCount := 0
  popped := []

/-- What a thread has in hand. -/
inductive MutexHand where
  /-- Not the queue mutex. -/
  | out
  | held
  /-- The mutex, and an id drawn from `next_id`. -/
  | drawn (id : Nat)
  /-- The mutex, and an item it has not counted yet. -/
  | popped

/-- The atomic operations of the baseline. -/
inductive MutexAct where
  /-- `producer_lock_count.fetch_add(1)`. -/
  | addProducerLock
  | addConsumerLock
  /-- `queue.lock()`. -/
  | lock
  /-- `next_id.fetch_add(1)`. -/
  | draw
  /-- `queue.push_back(id)`. -/
  | push
  /-- `queue.pop_front()`. -/
  | pop
  /-- `processed.fetch_add(1)`. -/
  | count
  /-- The guard of the queue is dropped. -/
  | unlock

/-- One atomic operation; `queue.lock()` does not return while the mutex is taken, and is no step
then. For the soft lock that would make no difference, by `exec_locking`. -/
def MutexInner.op : Proc MutexInner MutexHand MutexAct := fun m h act =>
  match h, act with
  | .out, .addProducerLock => some ({ m with producerLockCount := m.producerLockCount + 1 }, .out)
  | .out, .addConsumerLock => some ({ m with consumerLockCount := m.consumerLockCount + 1 }, .out)
  | .out, .lock =>
      if m.queue.held then none else some ({ m with queue := { m.queue with held := true } }, .held)
  | .held, .draw => some ({ m with nextId := m.nextId + 1 }, .drawn m.nextId)
  | .drawn id, .push =>
      some ({ m with queue := { m.queue with items := m.queue.items ++ [id] } }, .held)
  | .held, .pop =>
      match m.queue.items with
      | id :: rest =>
          some ({ m with
            queue := { m.queue with items := rest }
            popped := m.popped ++ [id] }, .popped)
      | [] => some (m, .held)
  | .popped, .count => some ({ m with processed := m.processed + 1 }, .held)
  | .held, .unlock => some ({ m with queue := { m.queue with held := false } }, .out)
  | _, _ => none

/-! ## The texts -/

inductive MutexPoint where
  | start
  | lock
  | draw
  | push
  | unlock

/-- A producer, with the number of rounds it has not begun. -/
structure MutexProducer where
  left : Nat
  pc : MutexPoint

inductive MutexConsumer where
  | start
  | lock
  /-- At the head of the loop, with `k` rounds to go. -/
  | loop (k : Nat)
  /-- After `queue.pop_front()`, with `k` rounds to go after this one. -/
  | popped (k : Nat)
  | testProcessed (processed : Nat)
  /-- `producers_done` was true; before `queue.is_empty()`. -/
  | testEmpty
  /-- Before the `drop(queue)` at the end of the round. -/
  | again
  /-- Out of the loop, before the guard of the queue goes. -/
  | leave
  | exited

inductive MutexCheck where
  | loadProcessed
  | lock (processed : Nat)
  | len (processed : Nat)
  | unlock (processed queueLeft : Nat)
  | asserts (processed queueLeft : Nat)
  | loadConsumerLocks (producerLocks : Nat)
  | finished (producerLocks consumerLocks : Nat)
  | panicked (message : String)

/-- The closure of `thread::spawn` in the loop over `s.producers`. -/
def runMutexBench.producer (t : MutexProducer) (_ : MutexHand) :
    Todo MutexInner MutexAct MutexProducer :=
  match t.pc with
  | .start =>
      match t.left with
      | 0 => .exit
      | left + 1 => .act .addProducerLock ⟨left, .lock⟩
  | .lock => .act .lock ⟨t.left, .draw⟩
  | .draw => .act .draw ⟨t.left, .push⟩
  | .push => .act .push ⟨t.left, .unlock⟩
  | .unlock => .act .unlock ⟨t.left, .start⟩

/-- The closure the consumer thread runs. -/
def runMutexBench.consumer (s : Scenario) (t : MutexConsumer) (h : MutexHand) :
    Todo MutexInner MutexAct MutexConsumer :=
  match t with
  | .start => .act .addConsumerLock .lock
  | .lock => .act .lock (.loop s.consumerBudget)
  | .loop (k + 1) => .act .pop (.popped k)
  | .loop 0 => .load fun m => .testProcessed m.processed
  | .popped k =>
      match h with
      | .popped => .act .count (.loop k)
      | _ => .load fun m => .testProcessed m.processed
  | .testProcessed processed =>
      if processed ≥ s.totalOps then .act .unlock .exited
      else .loadDone fun done => if done then .testEmpty else .again
  | .testEmpty => .load fun m => if m.queue.items.isEmpty then .leave else .again
  | .again => .act .unlock .start
  | .leave => .act .unlock .exited
  | .exited => .exit

/-- What the main thread does after the joins. -/
def runMutexBench.check (s : Scenario) (t : MutexCheck) (_ : MutexHand) :
    Todo MutexInner MutexAct MutexCheck :=
  match t with
  | .loadProcessed => .load fun m => .lock m.processed
  | .lock processed => .act .lock (.len processed)
  | .len processed => .load fun m => .unlock processed m.queue.items.length
  | .unlock processed queueLeft => .act .unlock (.asserts processed queueLeft)
  | .asserts processed queueLeft =>
      if processed ≠ s.totalOps then .goto (.panicked "mutex processed mismatch")
      else if queueLeft ≠ 0 then .goto (.panicked "mutex queue should be empty")
      else .load fun m => .loadConsumerLocks m.producerLockCount
  | .loadConsumerLocks producerLocks => .load fun m => .finished producerLocks m.consumerLockCount
  | .finished _ _ | .panicked _ => .exit

/-- `run_mutex_bench`. -/
def runMutexBench (s : Scenario) :
    BenchText MutexInner MutexHand MutexAct MutexProducer MutexConsumer MutexCheck where
  producer := runMutexBench.producer
  consumer := runMutexBench.consumer s
  check := runMutexBench.check s
  start := .loadProcessed

/-- The threads of `run_mutex_bench`. -/
abbrev MutexBench (s : Scenario) :=
  Bench s.producers MutexInner MutexHand MutexProducer MutexConsumer MutexCheck

abbrev MutexBench.step (s : Scenario) : MutexBench s → Tid s.producers → Option (MutexBench s) :=
  Bench.step MutexInner.op (runMutexBench s)

/-- Everything spawned, nothing run. -/
def MutexBench.init (s : Scenario) : MutexBench s :=
  Bench.init MutexInner.new .out ⟨s.opsPerProducer, .start⟩ .start

/-! ## The accounts -/

/-- The hand holds the queue mutex. -/
def MutexHand.Holds : MutexHand → Prop
  | .out => False
  | _ => True

/-- The id in hand, if there is one. -/
def MutexHand.id? : MutexHand → Option Nat
  | .drawn id => some id
  | _ => none

/-- Items popped and not yet counted. -/
def MutexHand.uncounted : MutexHand → Nat
  | .popped => 1
  | _ => 0

/-- Where the ids are, with this in the hand of whoever has the mutex. -/
structure MutexLedger (m : MutexInner) (h : MutexHand) : Prop where
  ids : m.popped ++ m.queue.items = List.range' 1 (m.popped.length + m.queue.items.length)
  drawn : ∀ id, h.id? = some id → id = m.popped.length + m.queue.items.length + 1
  next : m.nextId = m.popped.length + m.queue.items.length + 1 + h.id?.toList.length
  processed : m.processed + h.uncounted = m.popped.length

/-- The mutex is taken when somebody has it, and the ids are where they should be. -/
def MutexPromise (m : MutexInner) (o : Option MutexHand) : Prop :=
  m.queue.held = o.isSome ∧ MutexLedger m (o.getD .out)

/-- Each operation that is possible, with what it leaves in hand. -/
inductive MutexStep (m : MutexInner) : MutexHand → MutexInner → MutexHand → Prop where
  | addProducerLock :
      MutexStep m .out { m with producerLockCount := m.producerLockCount + 1 } .out
  | addConsumerLock :
      MutexStep m .out { m with consumerLockCount := m.consumerLockCount + 1 } .out
  | lock : m.queue.held = false →
      MutexStep m .out { m with queue := { m.queue with held := true } } .held
  | draw : MutexStep m .held { m with nextId := m.nextId + 1 } (.drawn m.nextId)
  | push {id} : MutexStep m (.drawn id)
      { m with queue := { m.queue with items := m.queue.items ++ [id] } } .held
  | pop {id rest} : m.queue.items = id :: rest → MutexStep m .held
      { m with queue := { m.queue with items := rest }, popped := m.popped ++ [id] } .popped
  | popNone : m.queue.items = [] → MutexStep m .held m .held
  | count : MutexStep m .popped { m with processed := m.processed + 1 } .held
  | unlock : MutexStep m .held { m with queue := { m.queue with held := false } } .out

/-- **Inversion.** -/
theorem MutexInner.op_cases {m m' : MutexInner} {h h' : MutexHand} {act : MutexAct}
    (hs : MutexInner.op m h act = some (m', h')) : MutexStep m h m' h' := by
  cases h with
  | out =>
      cases act <;> simp only [MutexInner.op, reduceCtorEq] at hs
      · cases hs
        exact .addProducerLock
      · cases hs
        exact .addConsumerLock
      · split at hs <;> rename_i hheld <;> cases hs
        exact .lock (by simpa using hheld)
  | held =>
      cases act <;> simp only [MutexInner.op, reduceCtorEq] at hs
      · cases hs
        exact .draw
      · split at hs <;> rename_i hq <;> cases hs
        · exact .pop hq
        · exact .popNone hq
      · cases hs
        exact .unlock
  | drawn id =>
      cases act <;> simp only [MutexInner.op, reduceCtorEq] at hs
      cases hs
      exact .push
  | popped =>
      cases act <;> simp only [MutexInner.op, reduceCtorEq] at hs
      cases hs
      exact .count

/-- Whoever has the mutex keeps the accounts. -/
theorem MutexLedger.step {m m' : MutexInner} {h h' : MutexHand} (hl : MutexLedger m h)
    (hs : MutexStep m h m' h') : MutexLedger m' h' := by
  obtain ⟨hids, hdrawn, hnext, hproc⟩ := hl
  cases hs with
  | addProducerLock | addConsumerLock | lock _ | unlock => exact ⟨hids, nofun, hnext, hproc⟩
  | popNone _ => exact ⟨hids, nofun, hnext, hproc⟩
  | draw =>
      refine ⟨hids, ?_, ?_, hproc⟩
      · intro id hid
        cases hid
        exact hnext
      · show m.nextId + 1 = _ + 1
        rw [hnext]
        rfl
  | @push id =>
      have hid := hdrawn id rfl
      have hlen : (m.queue.items ++ [id]).length = m.queue.items.length + 1 :=
        List.length_append
      refine ⟨Consecutive.push hids hid, nofun, ?_, hproc⟩
      · show m.nextId = _ + (m.queue.items ++ [id]).length + 1 + 0
        rw [hlen, hnext]
        simp only [MutexHand.id?, Option.toList_some, List.length_singleton]
        omega
  | @pop id rest hq =>
      rw [hq] at hids hnext
      have hlen : (m.popped ++ [id]).length = m.popped.length + 1 := List.length_append
      rw [List.length_cons] at hnext
      refine ⟨Consecutive.pop hids, nofun, ?_, ?_⟩
      · show m.nextId = (m.popped ++ [id]).length + rest.length + 1 + 0
        rw [hlen, hnext]
        simp only [MutexHand.id?, Option.toList_none, List.length_nil]
        omega
      · show m.processed + 1 = (m.popped ++ [id]).length
        rw [hlen, ← hproc]
        rfl
  | count =>
      refine ⟨hids, nofun, hnext, ?_⟩
      show m.processed + 1 + 0 = _
      exact hproc

theorem mutex_owner : OwnerInv MutexInner.op MutexHand.Holds MutexPromise where
  own := by
    intro m h act m' h' hh hj hs
    obtain ⟨hheld, hl⟩ := hj
    have hl' := hl.step (MutexInner.op_cases hs)
    cases MutexInner.op_cases hs with
    | draw | push | pop _ | popNone _ | count => exact Or.inl ⟨trivial, hheld, hl'⟩
    | unlock => exact Or.inr ⟨id, rfl, hl'⟩
    | addProducerLock | addConsumerLock | lock _ => exact hh.elim
  other := by
    intro m h act m' h' o hh hj hs
    obtain ⟨hheld, hl⟩ := hj
    cases MutexInner.op_cases hs with
    | addProducerLock | addConsumerLock =>
        exact Or.inl ⟨id, hheld, hl.ids, hl.drawn, hl.next, hl.processed⟩
    | lock hfree =>
        rw [hfree] at hheld
        cases o with
        | none => exact Or.inr ⟨trivial, rfl, rfl, hl.ids, nofun, hl.next, hl.processed⟩
        | some h => cases hheld
    | draw | push | pop _ | popNone _ | count | unlock => exact absurd trivial hh

/-! ## Submissions made, and submissions to make -/

/-- Drawing an id is what makes a submission. -/
def MutexAct.draws : MutexAct → Nat
  | .draw => 1
  | _ => 0

/-- The ids a producer has still to draw. -/
def MutexProducer.toDraw (t : MutexProducer) (_ : MutexHand) : Nat :=
  match t.pc with
  | .lock | .draw => t.left + 1
  | _ => t.left

theorem MutexInner.op_next {m m' : MutexInner} {h h' : MutexHand} {act : MutexAct}
    (hs : MutexInner.op m h act = some (m', h')) : m'.nextId = m.nextId + act.draws := by
  cases h with
  | out =>
      cases act <;> simp only [MutexInner.op, reduceCtorEq] at hs
      · cases hs
        rfl
      · cases hs
        rfl
      · split at hs <;> cases hs
        rfl
  | held =>
      cases act <;> simp only [MutexInner.op, reduceCtorEq] at hs
      · cases hs
        rfl
      · split at hs <;> cases hs <;> rfl
      · cases hs
        rfl
  | drawn id =>
      cases act <;> simp only [MutexInner.op, reduceCtorEq] at hs
      cases hs
      rfl
  | popped =>
      cases act <;> simp only [MutexInner.op, reduceCtorEq] at hs
      cases hs
      rfl

theorem MutexStep.processed_le {m m' : MutexInner} {h h' : MutexHand} (hs : MutexStep m h m' h') :
    m.processed ≤ m'.processed := by
  cases hs with
  | count => exact Nat.le_succ _
  | _ => exact Nat.le_refl _

theorem mutexProducer_text (t : MutexProducer) (h : MutexHand) :
    (∃ act t', runMutexBench.producer t h = .act act t'
        ∧ ∀ h', t'.toDraw h' + act.draws = t.toDraw h)
      ∨ (runMutexBench.producer t h = .exit ∧ t.toDraw h = 0) := by
  obtain ⟨left, pc⟩ := t
  cases pc with
  | start =>
      cases left with
      | zero => exact Or.inr ⟨rfl, rfl⟩
      | succ left => exact Or.inl ⟨_, _, rfl, fun _ => rfl⟩
  | lock | draw | push | unlock => exact Or.inl ⟨_, _, rfl, fun _ => rfl⟩

theorem mutexConsumer_draws {s : Scenario} {t t' : MutexConsumer} {h : MutexHand} {act : MutexAct}
    (htext : runMutexBench.consumer s t h = .act act t') : act.draws = 0 := by
  unfold runMutexBench.consumer at htext
  split at htext
  case h_5 => split at htext <;> cases htext; rfl
  case h_6 => split at htext <;> cases htext; rfl
  all_goals cases htext
  all_goals rfl

theorem mutexCheck_draws {s : Scenario} {t t' : MutexCheck} {h : MutexHand} {act : MutexAct}
    (htext : runMutexBench.check s t h = .act act t') : act.draws = 0 := by
  cases t with
  | asserts processed queueLeft =>
      unfold runMutexBench.check at htext
      dsimp only at htext
      split at htext
      · cases htext
      · split at htext <;> cases htext
  | lock processed =>
      cases htext
      rfl
  | unlock processed queueLeft =>
      cases htext
      rfl
  | _ => cases htext

/-- A step of a text draws the ids its operation draws, and only adds to `processed`. -/
theorem mutexTake_kept {κ : Type} {todo : Todo MutexInner MutexAct κ} {k : κ} {h h' : MutexHand}
    {m m' : MutexInner} {done : Bool}
    (hs : todo.take MutexInner.op m done h = some (m', h', k)) :
    m.processed ≤ m'.processed
      ∧ ((∀ act k', todo = .act act k' → act.draws = 0) → m'.nextId = m.nextId) := by
  rcases Todo.take_cases hs with ⟨act, htodo, hop⟩ | ⟨rfl, -, -⟩
  · refine ⟨(MutexInner.op_cases hop).processed_le, fun hdraws => ?_⟩
    rw [MutexInner.op_next hop, hdraws act k htodo, Nat.add_zero]
  · exact ⟨Nat.le_refl _, fun _ => rfl⟩

namespace MutexBench

variable {s : Scenario}

/-- Every producer is over. -/
def AllExited (c : MutexBench s) : Prop := ∀ p, Bench.Exited (runMutexBench s) c p

/-- The books of the baseline: the ids drawn and those still to draw are `total_ops`. -/
def Books (c : MutexBench s) : Prop :=
  c.inner.nextId + c.toDo MutexProducer.toDraw = s.totalOps + 1

theorem books_step {c c' : MutexBench s} {t : Tid s.producers} (h : Books c)
    (hs : step s c t = some c') : Books c' := by
  unfold Books at h ⊢
  cases Bench.step_cases hs with
  | @producer p m' h' k ht =>
      have hsum := @Bench.toDo_producer _ _ _ _ _ _ MutexProducer.toDraw c p m' h' k
      rcases mutexProducer_text (c.producer p) (c.phase (.producer p)) with
        ⟨act, t', htext, hdraw⟩ | ⟨htext, -⟩
      · rw [show (runMutexBench s).producer = runMutexBench.producer from rfl, htext] at ht
        obtain ⟨hop, rfl⟩ := Todo.take_act ht
        have hnext := MutexInner.op_next hop
        have hleft := hdraw h'
        dsimp only at hsum ⊢
        omega
      · rw [show (runMutexBench s).producer = runMutexBench.producer from rfl, htext] at ht
        cases ht
  | consumer ht =>
      have hnext := (mutexTake_kept ht).2 fun _ _ htext => mutexConsumer_draws htext
      rw [Bench.toDo_other (fun _ he => by cases he), hnext]
      exact h
  | check _ ht =>
      have hnext := (mutexTake_kept ht).2 fun _ _ htext =>
        @mutexCheck_draws s _ _ (c.phase .main) _ htext
      rw [Bench.toDo_other (fun _ he => by cases he), hnext]
      exact h
  | joinProducer _ _ | storeDone _ _ | joinConsumer _ _ => exact h

theorem books_reachable {c : MutexBench s} (h : Reachable (step s) (init s) c) : Books c := by
  refine h.invariant (I := Books) ?_ (fun _ ih hs => books_step ih hs)
  unfold Books init
  rw [Bench.toDo_init]
  show 1 + s.producers * s.opsPerProducer = s.producers * s.opsPerProducer + 1
  exact Nat.add_comm _ _

theorem owned {c : MutexBench s} (h : Reachable (step s) (init s) c) :
    Owned MutexHand.Holds MutexPromise c.threads := by
  refine owned_reachable mutex_owner ?_ (Bench.threads_reachable h)
  exact ⟨none, fun _ => id, rfl, rfl, nofun, rfl, rfl⟩

/-- Once `processed` is `total_ops`, every id has been drawn and popped. -/
structure Settled (s : Scenario) (m : MutexInner) : Prop where
  processed : m.processed = s.totalOps
  nextId : m.nextId = s.totalOps + 1
  queue : m.queue.items = []

theorem settled {c : MutexBench s} (h : Reachable (step s) (init s) c)
    (hge : s.totalOps ≤ c.inner.processed) : Settled s c.inner := by
  have hbooks : c.inner.nextId + _ = _ := books_reachable h
  obtain ⟨o, -, -, hledger⟩ := owned h
  have hnext : c.inner.nextId = _ := hledger.next
  have hproc : c.inner.processed + _ = c.inner.popped.length := hledger.processed
  refine ⟨?_, ?_, List.eq_nil_of_length_eq_zero ?_⟩
  all_goals
    change _ = c.inner.popped.length + c.inner.queue.items.length + 1 + _ at hnext
    omega

/-- Finding the queue empty with the producers over says the same. -/
theorem read_empty {c : MutexBench s} (h : Reachable (step s) (init s) c)
    (hh : c.phase .consumer = .held) (hexit : AllExited c) (hq : c.inner.queue.items = []) :
    s.totalOps ≤ c.inner.processed := by
  have hbooks : c.inner.nextId + _ = _ := books_reachable h
  have htodo : c.toDo MutexProducer.toDraw = 0 := by
    refine Bench.toDo_exited fun p => ?_
    rcases mutexProducer_text (c.producer p) (c.phase (.producer p)) with
      ⟨act, t', htext, -⟩ | ⟨-, h0⟩
    · have hp := hexit p
      unfold Bench.Exited at hp
      rw [show (runMutexBench s).producer = runMutexBench.producer from rfl, htext] at hp
      cases hp
    · exact h0
  have hhold : (c.threads.thread .consumer).Holds := by
    show (c.phase .consumer).Holds
    rw [hh]
    trivial
  obtain ⟨-, hledger⟩ := owned_some (owned h) hhold
  rw [show c.threads.thread .consumer = .held from hh] at hledger
  have hnext : c.inner.nextId = c.inner.popped.length + c.inner.queue.items.length + 1 + 0 :=
    hledger.next
  have hproc : c.inner.processed + 0 = c.inner.popped.length := hledger.processed
  rw [hq, List.length_nil] at hnext
  omega

end MutexBench

/-! ## What the consumer and the main thread know -/

/-- What the consumer of the baseline knows at each point, with this in hand. -/
def MutexConsumer.Knows (total : Nat) (submitted : Prop) (m : MutexInner) (h : MutexHand) :
    MutexConsumer → Prop
  | .loop _ => h = .held
  | .popped _ => h = .popped ∨ h = .held
  | .testProcessed processed => h = .held ∧ processed ≤ m.processed
  | .testEmpty => h = .held ∧ submitted
  | .leave | .exited => total ≤ m.processed
  | _ => True

theorem MutexConsumer.Knows.mono {total : Nat} {submitted submitted' : Prop} {m m' : MutexInner}
    {h : MutexHand} {t : MutexConsumer} (hk : t.Knows total submitted m h)
    (hsub : submitted → submitted') (hproc : m.processed ≤ m'.processed) :
    t.Knows total submitted' m' h := by
  cases t with
  | loop k => exact hk
  | popped k => exact hk
  | testProcessed processed => exact ⟨hk.1, Nat.le_trans hk.2 hproc⟩
  | testEmpty => exact ⟨hk.1, hsub hk.2⟩
  | leave => exact Nat.le_trans hk hproc
  | exited => exact Nat.le_trans hk hproc
  | _ => trivial

/-- **One step of the consumer.** -/
theorem mutexConsumer_take {s : Scenario} {t t' : MutexConsumer} {h h' : MutexHand}
    {m m' : MutexInner} {done : Bool} {submitted : Prop}
    (hk : t.Knows s.totalOps submitted m h)
    (hs : (runMutexBench.consumer s t h).take MutexInner.op m done h = some (m', h', t'))
    (hdone : done = true → submitted)
    (hread : h = .held → submitted → m.queue.items = [] → s.totalOps ≤ m.processed) :
    t'.Knows s.totalOps submitted m' h' := by
  have hkept := (mutexTake_kept hs).1
  cases t with
  | start =>
      obtain ⟨hop, rfl⟩ := Todo.take_act hs
      trivial
  | lock =>
      obtain ⟨hop, rfl⟩ := Todo.take_act hs
      cases h <;> simp only [MutexInner.op, reduceCtorEq] at hop
      split at hop <;> cases hop
      rfl
  | loop k =>
      cases k with
      | zero =>
          cases hs
          exact ⟨hk, Nat.le_refl _⟩
      | succ k =>
          obtain ⟨hop, rfl⟩ := Todo.take_act hs
          cases hk
          simp only [MutexInner.op] at hop
          split at hop <;> cases hop
          · exact Or.inl rfl
          · exact Or.inr rfl
  | popped k =>
      rcases hk with rfl | rfl
      · cases hs
        rfl
      · cases hs
        exact ⟨rfl, Nat.le_refl _⟩
  | testProcessed processed =>
      obtain ⟨rfl, hle⟩ := hk
      unfold runMutexBench.consumer at hs
      dsimp only at hs
      split at hs
      · rename_i hge
        cases hs
        exact Nat.le_trans hge (Nat.le_trans hle hkept)
      · cases hs
        cases done with
        | true => exact ⟨rfl, hdone rfl⟩
        | false => trivial
  | testEmpty =>
      obtain ⟨rfl, hsub⟩ := hk
      cases hs
      by_cases hq : m.queue.items.isEmpty = true
      · show (if _ then MutexConsumer.leave else .again).Knows _ _ _ _
        rw [if_pos hq]
        exact hread rfl hsub (List.isEmpty_iff.mp hq)
      · show (if _ then MutexConsumer.leave else .again).Knows _ _ _ _
        rw [if_neg hq]
        trivial
  | again =>
      obtain ⟨hop, rfl⟩ := Todo.take_act hs
      trivial
  | leave =>
      obtain ⟨hop, rfl⟩ := Todo.take_act hs
      exact Nat.le_trans hk hkept
  | exited => cases hs

/-- What the main thread has read is right. -/
def MutexCheck.Right (s : Scenario) : MutexCheck → Prop
  | .lock processed | .len processed => processed = s.totalOps
  | .unlock processed queueLeft | .asserts processed queueLeft =>
      processed = s.totalOps ∧ queueLeft = 0
  | .panicked _ => False
  | _ => True

theorem mutexCheck_take {s : Scenario} {t t' : MutexCheck} {h h' : MutexHand} {m m' : MutexInner}
    {done : Bool} (hk : t.Right s)
    (hs : (runMutexBench.check s t h).take MutexInner.op m done h = some (m', h', t'))
    (hset : MutexBench.Settled s m) : t'.Right s := by
  cases t with
  | loadProcessed =>
      cases hs
      exact hset.processed
  | lock processed =>
      obtain ⟨hop, rfl⟩ := Todo.take_act hs
      exact hk
  | len processed =>
      cases hs
      exact ⟨hk, by rw [hset.queue]; rfl⟩
  | unlock processed queueLeft =>
      obtain ⟨hop, rfl⟩ := Todo.take_act hs
      exact hk
  | asserts processed queueLeft =>
      obtain ⟨h1, h2⟩ := hk
      unfold runMutexBench.check at hs
      dsimp only at hs
      rw [if_neg (fun hne => hne h1), if_neg (fun hne => hne h2)] at hs
      cases hs
      trivial
  | loadConsumerLocks producerLocks =>
      cases hs
      trivial
  | finished producerLocks consumerLocks => cases hs
  | panicked message => cases hs

namespace MutexBench

variable {s : Scenario}

structure Known (c : MutexBench s) : Prop where
  consumer : c.consumer.Knows s.totalOps c.AllExited c.inner (c.phase .consumer)
  right : ∀ pc, c.main = .check pc → pc.Right s

/-- The main thread finds everything settled. -/
theorem main_finds {c : MutexBench s} (h : Reachable (step s) (init s) c) (hk : Known c)
    {pc : MutexCheck} (hm : c.main = .check pc) : Settled s c.inner := by
  obtain ⟨-, hexit⟩ := (Bench.joined_reachable h).all hm
  have hcons := hk.consumer
  refine settled h ?_
  unfold Bench.ConsumerExited at hexit
  generalize c.consumer = t at hcons hexit
  change runMutexBench.consumer s t (c.phase .consumer) = .exit at hexit
  unfold runMutexBench.consumer at hexit
  split at hexit
  case h_10 => exact hcons
  case h_5 => split at hexit <;> cases hexit
  case h_6 => split at hexit <;> cases hexit
  all_goals cases hexit

theorem known_step {c c' : MutexBench s} {t : Tid s.producers}
    (hr : Reachable (step s) (init s) c) (hk : Known c) (hs : step s c t = some c') :
    Known c' := by
  have hexit : c.AllExited → c'.AllExited := fun he p => Bench.exited_step hs (he p)
  have hjoined := Bench.joined_reachable hr
  cases Bench.step_cases hs with
  | producer ht => exact ⟨hk.consumer.mono hexit (mutexTake_kept ht).1, hk.right⟩
  | @consumer m' h' k ht =>
      refine ⟨?_, hk.right⟩
      have hown : k.Knows s.totalOps c.AllExited m' h' :=
        mutexConsumer_take hk.consumer ht (fun hd => hjoined.done hd)
          (fun hh he hq => read_empty hr hh he hq)
      show k.Knows s.totalOps _ m' (Function.update c.phase .consumer h' .consumer)
      rw [Function.update_self]
      exact hown.mono hexit (Nat.le_refl _)
  | check hm ht =>
      refine ⟨hk.consumer.mono hexit (mutexTake_kept ht).1, ?_⟩
      intro pc hpc
      cases hpc
      exact mutexCheck_take (hk.right _ hm) ht (main_finds hr hk hm)
  | joinProducer _ _ | storeDone _ _ =>
      exact ⟨hk.consumer.mono hexit (Nat.le_refl _), nofun⟩
  | joinConsumer _ _ =>
      refine ⟨hk.consumer.mono hexit (Nat.le_refl _), ?_⟩
      intro pc hpc
      cases hpc
      trivial

theorem known_reachable {c : MutexBench s} (h : Reachable (step s) (init s) c) : Known c := by
  refine h.invariant (I := Known) ?_ (fun hr ih hs => known_step hr ih hs)
  exact ⟨trivial, nofun⟩

end MutexBench

end Hopter
