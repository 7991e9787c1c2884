import Hopter.Lib.TicketQueue
import Hopter.SoftLock.SoftBenchEnd
import Hopter.SoftLock.MutexBench

/-!
# The two benchmarks, side by side

Both queues are one that numbers its items. The simulation looks at what was
popped and what is queued: a step of either benchmark leaves them alone, pushes
the next id or pops the oldest, and everything a soft lock has only recorded so
far is not in it until a holder's push makes it so.
-/

namespace Hopter

open Conc

/-! ## The checks at the end -/

/--
**The end checks cannot fail.**

In every state of every run: no assertion fails, the main thread is never given
a PendOnly access, so the `unreachable!` arm is unreachable, and what it asserts
about is what it should be. No counter wraps with `total_ops` in range.
-/
theorem end_checks_hold {s : Scenario} (hfit : s.totalOps < 2 ^ 64) {c : SoftBench s}
    (hc : Reachable (SoftBench.step s) (SoftBench.init s) c) {m : MutexBench s}
    (hm : Reachable (MutexBench.step s) (MutexBench.init s) m) :
    ((∀ message, c.main ≠ .check (.panicked message))
        ∧ (∀ pc, c.main = .check pc → ¬ (c.phase .main).PendOnly)
        ∧ (∀ checked read, c.main = .check (.asserts checked read) →
            checked.processed = s.totalOps ∧ checked.pending = 0 ∧ checked.queueLeft = 0)
        ∧ CountersFit c.inner.content)
      ∧ ((∀ message, m.main ≠ .check (.panicked message))
        ∧ (∀ processed queueLeft, m.main = .check (.asserts processed queueLeft) →
            processed = s.totalOps ∧ queueLeft = 0)
        ∧ m.inner.processed < 2 ^ 64 ∧ m.inner.nextId ≤ 2 ^ 64) := by
  have hsoft := SoftBench.known_reachable hc
  have hmutex := MutexBench.known_reachable hm
  refine ⟨⟨?_, ?_, ?_, ?_⟩, ?_, ?_, ?_⟩
  · intro message hmain
    exact hsoft.right _ hmain
  · intro pc hmain hpend
    exact (hsoft.right pc hmain).not_pendOnly hpend
  · intro checked read hmain
    exact (hsoft.right _ hmain).1
  · obtain ⟨o, -, -, hledger⟩ := demo_owned (SoftBench.threads_reachable hc)
    have hbooks := (softBooks_reachable hc).total
    refine hledger.counters_fit ?_
    show c.inner.content.made < 2 ^ 64
    omega
  · intro message hmain
    exact hmutex.right _ hmain
  · intro processed queueLeft hmain
    exact hmutex.right _ hmain
  · have hbooks : m.inner.nextId + _ = _ := MutexBench.books_reachable hm
    obtain ⟨o, -, -, hledger⟩ := MutexBench.owned hm
    have hnext : m.inner.nextId
        = m.inner.popped.length + m.inner.queue.items.length + 1 + _ := hledger.next
    have hproc : m.inner.processed + _ = m.inner.popped.length := hledger.processed
    omega

/-- Two producers and the consumer over the baseline, and the main thread as far as its
assertions. -/
def mutexEndRun : List (Tid 2) :=
  List.replicate 5 (.producer 0) ++ List.replicate 5 (.producer 1) ++ List.replicate 3 .main
    ++ List.replicate 14 .consumer ++ List.replicate 5 .main

/-- Both runs get to the end, the one over the soft lock with a submission that was pended: the main
threads pass their assertions. -/
theorem end_checks_hold_run :
    ∃ c m checked read processed queueLeft,
      exec (SoftBench.step ⟨2, 1, 1⟩) (SoftBench.init ⟨2, 1, 1⟩) pendedRun.dropLast = some c
        ∧ c.main = .check (.asserts checked read) ∧ c.inner.content.hist.pends = 1
        ∧ checked.processed = 2 ∧ checked.pending = 0 ∧ checked.queueLeft = 0
        ∧ CountersFit c.inner.content
        ∧ exec (MutexBench.step ⟨2, 1, 1⟩) (MutexBench.init ⟨2, 1, 1⟩) mutexEndRun = some m
        ∧ m.main = .check (.asserts processed queueLeft) ∧ processed = 2 ∧ queueLeft = 0 := by
  have hsoft : ((exec (SoftBench.step ⟨2, 1, 1⟩) (SoftBench.init ⟨2, 1, 1⟩) pendedRun.dropLast).map
      fun c => (c.main, c.inner.content.hist.pends))
        = some (.check (.asserts ⟨2, 0, 0⟩ [1, 1, 1, 1]), 1) := rfl
  have hmutex : ((exec (MutexBench.step ⟨2, 1, 1⟩) (MutexBench.init ⟨2, 1, 1⟩) mutexEndRun).map
      fun m => m.main) = some (.check (.asserts 2 0)) := rfl
  rw [Option.map_eq_some_iff] at hsoft hmutex
  obtain ⟨c, hc, heq⟩ := hsoft
  obtain ⟨hcmain, hpends⟩ := Prod.mk.inj heq
  obtain ⟨m, hm, hmmain⟩ := hmutex
  obtain ⟨⟨-, -, hchecked, hfit⟩, -, hasserts, -⟩ :=
    end_checks_hold (s := ⟨2, 1, 1⟩) (by decide) ⟨_, hc⟩ ⟨_, hm⟩
  obtain ⟨h1, h2, h3⟩ := hchecked _ _ hcmain
  obtain ⟨h4, h5⟩ := hasserts _ _ hmmain
  exact ⟨c, m, _, _, _, _, hc, hcmain, hpends, h1, h2, h3, hfit, hm, hmmain, h4, h5⟩

/-! ## One step at a time -/

/-- The queue of the soft lock, as far as it is visible. -/
def DemoInner.tickets (d : DemoInner) : TicketQueue := .of d.hist.popped d.queue.items

/-- The queue of the baseline. -/
def MutexInner.tickets (m : MutexInner) : TicketQueue := .of m.popped m.queue.items

/-- An atomic step with Full access moves one item, or none. -/
theorem FullEffect.move {d d' : DemoInner} (h : FullEffect d d') :
    TicketMove d.hist.popped d.queue.items d'.hist.popped d'.queue.items := by
  cases h with
  | pushDirect id => exact .push id
  | pushDrained id => exact .push id
  | pop id rest hq => exact .pop id rest hq
  | _ => exact .stay

/-- PendOnly access moves none. -/
theorem PendClosure.step_move {d d' : DemoInner} {a a' : PendClosure} {k : PendCall}
    (h : a.step d k = some (d', a')) :
    TicketMove d.hist.popped d.queue.items d'.hist.popped d'.queue.items := by
  cases k with
  | pendSubmit =>
      cases h
      exact .stay
  | addPendEntries =>
      cases h
      exact .stay

theorem MutexStep.move {m m' : MutexInner} {h h' : MutexHand} (hs : MutexStep m h m' h') :
    TicketMove m.popped m.queue.items m'.popped m'.queue.items := by
  cases hs with
  | @push id => exact .push id
  | @pop id rest hq => exact .pop id rest hq
  | _ => exact .stay

/-- A machine whose every step moves one item or none, and keeps the items consecutive, runs as
the queue does. -/
theorem tickets_run {S A : Type} {step : S → A → Option S} {s₀ s : S} {popped items : S → List Nat}
    (hmove : ∀ {s s' : S} {a : A}, Reachable step s₀ s → step s a = some s' →
      TicketMove (popped s) (items s) (popped s') (items s'))
    (hids : ∀ {s : S}, Reachable step s₀ s → Consecutive (popped s) (items s))
    (h : Reachable step s₀ s) :
    ∃ ops, exec TicketQueue.step (.of (popped s₀) (items s₀)) ops
      = some (.of (popped s) (items s)) := by
  refine h.invariant (I := fun s => ∃ ops, exec TicketQueue.step (.of (popped s₀) (items s₀)) ops
    = some (.of (popped s) (items s))) ⟨[], rfl⟩ ?_
  rintro s s' a hr ⟨ops, hops⟩ hs
  obtain ⟨more, -, hmore⟩ := (hmove hr hs).exec (hids (hr.tail hs))
  refine ⟨ops ++ more, ?_⟩
  rw [exec_append, hops]
  exact hmore

namespace SoftBench

variable {s : Scenario}

theorem consecutive {c : SoftBench s} (h : Reachable (step s) (init s) c) :
    Consecutive c.inner.content.hist.popped c.inner.content.queue.items := by
  obtain ⟨o, -, -, hledger⟩ := demo_owned (threads_reachable h)
  exact hledger.2.consecutive

theorem move {c c' : SoftBench s} {t : Tid s.producers} (hs : step s c t = some c') :
    TicketMove c.inner.content.hist.popped c.inner.content.queue.items
      c'.inner.content.hist.popped c'.inner.content.queue.items := by
  rcases Bench.threads_step hs with heq | ⟨e, he⟩
  · rw [show c'.inner = c.inner from congrArg Config.shared heq]
    exact .stay
  · have hlocal := Config.local_of_step he
    rcases withAccess_effect hlocal with heff | ⟨k, a, a', -, hpend⟩
    · exact heff.move
    · exact PendClosure.step_move hpend

end SoftBench

namespace MutexBench

variable {s : Scenario}

theorem consecutive {m : MutexBench s} (h : Reachable (step s) (init s) m) :
    Consecutive m.inner.popped m.inner.queue.items := by
  obtain ⟨o, -, -, hledger⟩ := owned h
  exact hledger.ids

theorem move {m m' : MutexBench s} {t : Tid s.producers} (hs : step s m t = some m') :
    TicketMove m.inner.popped m.inner.queue.items m'.inner.popped m'.inner.queue.items := by
  rcases Bench.threads_step hs with heq | ⟨e, he⟩
  · rw [show m'.inner = m.inner from congrArg Config.shared heq]
    exact .stay
  · exact (MutexInner.op_cases (Config.local_of_step he)).move

end MutexBench

/-! ## A queue operation as a critical section of the baseline -/

/-- One thread of the baseline, on its own. -/
abbrev MutexInner.alone : MutexInner × MutexHand → MutexAct → Option (MutexInner × MutexHand) :=
  fun x act => MutexInner.op x.1 x.2 act

/-- What the code of the baseline does under the queue mutex. -/
def criticalSection : TicketOp → List MutexAct
  | .append => [.lock, .draw, .push, .unlock]
  | .pop => [.lock, .pop, .count, .unlock]

/-- The fields of `MutexInner` that a queue with numbers has. -/
def MutexInner.view (m : MutexInner) : TicketQueue := ⟨m.queue.items, m.nextId, m.processed⟩

/-- A critical section does to the fields what the operation does to the queue. -/
theorem section_exec {m : MutexInner} {q : TicketQueue} {op : TicketOp}
    (hfree : m.queue.held = false) (h : TicketQueue.step m.view op = some q) :
    ∃ m', exec MutexInner.alone (m, .out) (criticalSection op) = some (m', .out)
      ∧ m'.view = q ∧ m'.queue.held = false := by
  cases op with
  | append =>
      cases h
      refine ⟨{ m with
        queue := { items := m.queue.items ++ [m.nextId], held := false }
        nextId := m.nextId + 1 }, ?_, rfl, rfl⟩
      simp only [criticalSection, exec_cons, MutexInner.alone, MutexInner.op, hfree,
        Bool.false_eq_true, if_false, Option.bind_some, exec_nil]
  | pop =>
      unfold TicketQueue.step MutexInner.view at h
      dsimp only at h
      split at h
      · cases h
      · rename_i id rest hq
        cases h
        refine ⟨{ m with
          queue := { items := rest, held := false }
          processed := m.processed + 1
          popped := m.popped ++ [id] }, ?_, rfl, rfl⟩
        simp only [criticalSection, exec_cons, MutexInner.alone, MutexInner.op, hfree,
          Bool.false_eq_true, if_false, Option.bind_some, hq, exec_nil]

/-- A run of the queue is a run of the baseline, with as many draws and pops. -/
theorem sections_exec {ops : List TicketOp} {m : MutexInner} {q : TicketQueue}
    (hfree : m.queue.held = false) (h : exec TicketQueue.step m.view ops = some q) :
    ∃ m', exec MutexInner.alone (m, .out) (ops.flatMap criticalSection) = some (m', .out)
      ∧ m'.view = q ∧ m'.queue.held = false := by
  induction ops generalizing m with
  | nil =>
      cases h
      exact ⟨m, rfl, rfl, hfree⟩
  | cons op ops ih =>
      rw [exec_cons, Option.bind_eq_some_iff] at h
      obtain ⟨q₁, hs, h⟩ := h
      obtain ⟨m₁, hm₁, rfl, hfree₁⟩ := section_exec hfree hs
      obtain ⟨m', hm', hview, hfree'⟩ := ih hfree₁ h
      refine ⟨m', ?_, hview, hfree'⟩
      rw [List.flatMap_cons, exec_append, hm₁]
      exact hm'

/-! ## The refinement -/

/-- The queue, `next_id` and `processed` are those of the baseline, up to what the holder has in
hand. -/
structure SoftAgrees (d : DemoInner) (hand : InHand) (q : TicketQueue) : Prop where
  queue : d.queue.items = q.queue
  nextId : d.nextId = q.nextId + hand.drawn.toList.length
  processed : d.processed + hand.uncounted = q.processed
  /-- Each submission is in `q` once it was pushed: directly, or drained by a holder. -/
  appended : d.hist.directs + d.hist.drained + 1 = q.nextId + hand.direct

structure MutexAgrees (m : MutexInner) (hand : MutexHand) (q : TicketQueue) : Prop where
  queue : m.queue.items = q.queue
  nextId : m.nextId = q.nextId + hand.id?.toList.length
  processed : m.processed + hand.uncounted = q.processed

theorem Ledger.agrees {d : DemoInner} {u : Use DemoInner} (h : Ledger d u) :
    SoftAgrees d u.inHand d.tickets := by
  have hpushed := h.2.pushed
  refine ⟨rfl, h.2.next, h.2.processed, ?_⟩
  show d.hist.directs + d.hist.drained + 1
    = d.hist.popped.length + d.queue.items.length + 1 + u.inHand.direct
  omega

theorem MutexLedger.agrees {m : MutexInner} {h : MutexHand} (hl : MutexLedger m h) :
    MutexAgrees m h m.tickets := ⟨rfl, hl.next, hl.processed⟩

/-- The benchmark over the soft lock has returned. -/
def SoftBench.Terminated {s : Scenario} (c : SoftBench s) : Prop :=
  ∃ read, c.main = .check (.finished read)

def MutexBench.Terminated {s : Scenario} (m : MutexBench s) : Prop :=
  ∃ producerLocks consumerLocks, m.main = .check (.finished producerLocks consumerLocks)

/-- A terminated run of the soft lock has popped everything. -/
theorem SoftBench.terminated {s : Scenario} {c : SoftBench s}
    (h : Reachable (step s) (init s) c) (hend : c.Terminated) :
    c.inner.content.processed = s.totalOps ∧ c.inner.content.nextId = s.totalOps + 1
      ∧ c.inner.content.queue.items = [] := by
  obtain ⟨read, hmain⟩ := hend
  have hknown := known_reachable h
  obtain ⟨hset, hfree⟩ := main_finds h hknown hmain
  have hlocked := hfree (hknown.right _ hmain)
  obtain ⟨o, -, hjo, hledger⟩ := demo_owned (threads_reachable h)
  have hnone : o = none := by
    cases o with
    | none => rfl
    | some p =>
        rw [show c.threads.shared.locked = false from hlocked] at hjo
        cases hjo
  subst hnone
  have hnext : c.inner.content.nextId = c.inner.content.hist.popped.length
      + c.inner.content.queue.items.length + 1 + 0 := hledger.2.next
  have hproc : c.inner.content.processed + 0 = c.inner.content.hist.popped.length :=
    hledger.2.processed
  rw [hset.queue, List.length_nil] at hnext
  have hprocessed := hset.processed
  exact ⟨hprocessed, by omega, hset.queue⟩

/--
**The soft-locked queue refines the mutex-protected one.**

`c` and `m` are where a run of each benchmark leads. The queue the soft lock
shows is one the baseline's own critical sections build, with one append for
each id pushed and one pop for each popped; each further atomic step is one
operation of that queue, or none. Both pop `1, 2, 3, …`, and if both have
returned they end alike.
-/
theorem softlock_refines_mutex {s : Scenario} {c : SoftBench s}
    (hc : Reachable (SoftBench.step s) (SoftBench.init s) c) {m : MutexBench s}
    (hm : Reachable (MutexBench.step s) (MutexBench.init s) m) :
    (∃ (ops : List TicketOp) (m₁ : MutexInner),
      exec MutexInner.alone (MutexInner.new, .out) (ops.flatMap criticalSection)
          = some (m₁, .out)
        ∧ m₁.view = c.inner.content.tickets
        ∧ c.inner.content.tickets.nextId = ops.count .append + 1
        ∧ c.inner.content.hist.popped.length = ops.count .pop)
      ∧ (∃ o, Owner Phase.Holding c.phase o
        ∧ SoftAgrees c.inner.content (useOf o).inHand c.inner.content.tickets)
      ∧ (∀ t c', SoftBench.step s c t = some c' → ∃ ops : List TicketOp, ops.length ≤ 1
        ∧ exec TicketQueue.step c.inner.content.tickets ops = some c'.inner.content.tickets)
      ∧ (∃ o, Owner MutexHand.Holds m.phase o
        ∧ MutexAgrees m.inner (o.getD .out) m.inner.tickets)
      ∧ (∀ t m', MutexBench.step s m t = some m' → ∃ ops : List TicketOp, ops.length ≤ 1
        ∧ exec TicketQueue.step m.inner.tickets ops = some m'.inner.tickets)
      ∧ c.inner.content.hist.popped = List.range' 1 c.inner.content.hist.popped.length
      ∧ m.inner.popped = List.range' 1 m.inner.popped.length
      ∧ (c.Terminated → m.Terminated →
          c.inner.content.processed = m.inner.processed
            ∧ c.inner.content.nextId = m.inner.nextId
            ∧ c.inner.content.queue.items = [] ∧ m.inner.queue.items = []) := by
  refine ⟨?_, ?_, ?_, ?_, ?_, ?_, ?_, ?_⟩
  · obtain ⟨ops, hops⟩ := tickets_run (fun _ hs => SoftBench.move hs) SoftBench.consecutive hc
    obtain ⟨m₁, hm₁, hview, -⟩ := @sections_exec ops MutexInner.new _ rfl hops
    obtain ⟨hnext, hproc⟩ := TicketQueue.exec_count hops
    exact ⟨ops, m₁, hm₁, hview, hnext, hproc⟩
  · obtain ⟨o, ho, -, hledger⟩ := demo_owned (SoftBench.threads_reachable hc)
    exact ⟨o, ho, hledger.agrees⟩
  · intro t c' hs
    exact (SoftBench.move hs).exec (SoftBench.consecutive (hc.tail hs))
  · obtain ⟨o, ho, -, hledger⟩ := MutexBench.owned hm
    exact ⟨o, ho, hledger.agrees⟩
  · intro t m' hs
    exact (MutexBench.move hs).exec (MutexBench.consecutive (hm.tail hs))
  · exact (SoftBench.consecutive hc).split.1
  · exact (MutexBench.consecutive hm).split.1
  · rintro hcend ⟨producerLocks, consumerLocks, hmain⟩
    obtain ⟨hproc, hnext, hqueue⟩ := SoftBench.terminated hc hcend
    have hset := MutexBench.main_finds hm (MutexBench.known_reachable hm) hmain
    exact ⟨by rw [hproc, hset.processed], by rw [hnext, hset.nextId], hqueue, hset.queue⟩

/-- The refinement along the two runs to the end. The queue of the soft lock is one the baseline
builds with two appends and two pops, of which one append was pended. -/
theorem softlock_refines_mutex_run :
    ∃ c m, exec (SoftBench.step ⟨2, 1, 1⟩) (SoftBench.init ⟨2, 1, 1⟩) pendedRun = some c
      ∧ exec (MutexBench.step ⟨2, 1, 1⟩) (MutexBench.init ⟨2, 1, 1⟩)
          (mutexEndRun ++ [.main, .main]) = some m
      ∧ c.inner.content.hist.drained = 1
      ∧ (∃ (ops : List TicketOp) (m₁ : MutexInner),
          exec MutexInner.alone (MutexInner.new, .out) (ops.flatMap criticalSection)
            = some (m₁, .out)
          ∧ m₁.view = c.inner.content.tickets ∧ ops.count .append = 2 ∧ ops.count .pop = 2)
      ∧ c.inner.content.processed = m.inner.processed
      ∧ c.inner.content.nextId = m.inner.nextId
      ∧ c.inner.content.queue.items = [] ∧ m.inner.queue.items = [] := by
  have hsoft : ((exec (SoftBench.step ⟨2, 1, 1⟩) (SoftBench.init ⟨2, 1, 1⟩) pendedRun).map
      fun c => (c.main, c.inner.content.hist.drained, c.inner.content.hist.popped,
        c.inner.content.queue.items))
        = some (.check (.finished [1, 1, 1, 1]), 1, [1, 2], []) := rfl
  have hmutex : ((exec (MutexBench.step ⟨2, 1, 1⟩) (MutexBench.init ⟨2, 1, 1⟩)
      (mutexEndRun ++ [.main, .main])).map fun m => m.main)
        = some (.check (.finished 2 2)) := rfl
  rw [Option.map_eq_some_iff] at hsoft hmutex
  obtain ⟨c, hc, heq⟩ := hsoft
  simp only [Prod.mk.injEq] at heq
  obtain ⟨hcmain, hdrained, hpopped, hitems⟩ := heq
  obtain ⟨m, hm, hmmain⟩ := hmutex
  obtain ⟨⟨ops, m₁, hops, hview, hnext, hpops⟩, -, -, -, -, -, -, hend⟩ :=
    softlock_refines_mutex ⟨_, hc⟩ ⟨_, hm⟩
  have happends : c.inner.content.tickets.nextId = 3 := by
    unfold DemoInner.tickets
    rw [hpopped, hitems]
    rfl
  rw [hpopped] at hpops
  exact ⟨c, m, hc, hm, hdrained, ⟨ops, m₁, hops, hview, by omega, hpops.symm⟩,
    hend ⟨_, hcmain⟩ ⟨_, _, hmmain⟩⟩

end Hopter
