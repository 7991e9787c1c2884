import Mathlib.Algebra.GroupWithZero.Nat
import Hopter.SoftLock.Protocol

/-!
# `DemoInner`

The content the demo puts into its soft lock: a queue of ids under a mutex, a
counter of submissions that were only recorded, and statistics. Each method of
`InnerFullAccessor` is a small machine whose states are the points between its
atomic operations, taking and releasing the queue mutex included.

Counters are natural numbers. `AtomicUsize` and `AtomicU64` wrap at `2 ^ 64`;
`counters_fit` in `Hopter.SoftLock.Ledger` says that no counter the accounting
uses gets there with fewer than `2 ^ 64` submissions.
-/

namespace Hopter

open Conc

/-- `Mutex<VecDeque<u64>>`. -/
structure QueueMutex where
  items : List Nat
  held : Bool
  deriving DecidableEq

/-- What happened so far. No code reads it. -/
structure History where
  /-- Ids drawn by `submit_direct`. -/
  directs : Nat
  /-- Submissions recorded by `pend_submit`. -/
  pends : Nat
  /-- Ids pushed by `run_pended_op`. -/
  drained : Nat
  /-- Ids taken out of the queue, the oldest first. -/
  popped : List Nat
  deriving DecidableEq

/-- `struct DemoInner`, and its history. -/
structure DemoInner where
  pendingSubmit : Nat
  queue : QueueMutex
  nextId : Nat
  processed : Nat
  drainedItems : Nat
  drainedBatches : Nat
  directItems : Nat
  fullEntries : Nat
  pendEntries : Nat
  hist : History
  deriving DecidableEq

/-- `DemoInner::new`. -/
def DemoInner.new : DemoInner where
  pendingSubmit := 0
  queue := { items := [], held := false }
  nextId := 1
  processed := 0
  drainedItems := 0
  drainedBatches := 0
  directItems := 0
  fullEntries := 0
  pendEntries := 0
  hist := { directs := 0, pends := 0, drained := 0, popped := [] }

namespace DemoInner

/-- The queue mutex is taken, or given back when its guard is dropped. -/
def setHeld (d : DemoInner) (held : Bool) : DemoInner :=
  { d with queue := { d.queue with held := held } }

/-- `queue.push_back(id)`. -/
def pushBack (d : DemoInner) (id : Nat) : DemoInner :=
  { d with queue := { d.queue with items := d.queue.items ++ [id] } }

/-- The counters a Full closure reads with a plain `load`. -/
inductive Counter where
  | pendingSubmit
  | processed
  | fullEntries
  | pendEntries
  | drainedItems
  | drainedBatches
  deriving DecidableEq

/-- `load(Ordering::SeqCst)`. -/
def load (d : DemoInner) : Counter → Nat
  | .pendingSubmit => d.pendingSubmit
  | .processed => d.processed
  | .fullEntries => d.fullEntries
  | .pendEntries => d.pendEntries
  | .drainedItems => d.drainedItems
  | .drainedBatches => d.drainedBatches

end DemoInner

/-! ## The methods of the accessors -/

/-- Points of `submit_direct`. -/
inductive SubmitDirect where
  /-- Before `next_id.fetch_add(1)`. -/
  | draw
  /-- Before `queue.lock()`. -/
  | lock (id : Nat)
  | push (id : Nat)
  /-- Before `direct_items.fetch_add(1)`. -/
  | count
  /-- Before the mutex guard is dropped. -/
  | unlock
  deriving DecidableEq

/-- Points of `process_some`; `n` is `processed_now`. -/
inductive ProcessSome where
  | lock (budget : Nat)
  /-- At the head of the loop. -/
  | loop (budget n : Nat)
  /-- An item was popped; before `processed.fetch_add(1)`. -/
  | count (budget n : Nat)
  | unlock (n : Nat)
  deriving DecidableEq

/-- Points of `queue_len`. -/
inductive QueueLen where
  | lock
  | read
  | unlock (len : Nat)
  deriving DecidableEq

/-- Points of `run_pended_op`; `n` is the count it took. -/
inductive RunPended where
  /-- Before `pending_submit.swap(0)`. -/
  | swap
  /-- Before `drained_batches.fetch_add(1)`. -/
  | batches (n : Nat)
  /-- Before `drained_items.fetch_add(pending)`. -/
  | items (n : Nat)
  | lock (n : Nat)
  /-- At the head of the loop, with `k` rounds to go. -/
  | loop (k : Nat)
  /-- An id was drawn; before `queue.push_back(id)`, with `k` rounds to go after this one. -/
  | push (k id : Nat)
  deriving DecidableEq

namespace InnerFullAccessor

/-- `submit_direct`; `none` when it returned. -/
def submitDirect (d : DemoInner) : SubmitDirect → DemoInner × Option SubmitDirect
  | .draw =>
      ({ d with
          nextId := d.nextId + 1
          hist := { d.hist with directs := d.hist.directs + 1 } }, some (.lock d.nextId))
  | .lock id => if d.queue.held then (d, some (.lock id)) else (d.setHeld true, some (.push id))
  | .push id => (d.pushBack id, some .count)
  | .count => ({ d with directItems := d.directItems + 1 }, some .unlock)
  | .unlock => (d.setHeld false, none)

/-- `process_some`; its result when it returned. -/
def processSome (d : DemoInner) : ProcessSome → DemoInner × (ProcessSome ⊕ Nat)
  | .lock budget =>
      if d.queue.held then (d, .inl (.lock budget)) else (d.setHeld true, .inl (.loop budget 0))
  | .loop budget n =>
      if budget > 0 then
        match d.queue.items with
        | id :: rest =>
            ({ d with
                queue := { d.queue with items := rest }
                hist := { d.hist with popped := d.hist.popped ++ [id] } }, .inl (.count budget n))
        | [] => (d, .inl (.unlock n))
      else (d, .inl (.unlock n))
  | .count budget n =>
      ({ d with processed := d.processed + 1 }, .inl (.loop (budget - 1) (n + 1)))
  | .unlock n => (d.setHeld false, .inr n)

/-- `queue_len`; its result when it returned. -/
def queueLen (d : DemoInner) : QueueLen → DemoInner × (QueueLen ⊕ Nat)
  | .lock => if d.queue.held then (d, .inl .lock) else (d.setHeld true, .inl .read)
  | .read => (d, .inl (.unlock d.queue.items.length))
  | .unlock len => (d.setHeld false, .inr len)

/-- `run_pended_op`; `none` when it returned. -/
def runPendedOp (d : DemoInner) : RunPended → DemoInner × Option RunPended
  | .swap =>
      ({ d with pendingSubmit := 0 },
        if d.pendingSubmit = 0 then none else some (.batches d.pendingSubmit))
  | .batches n => ({ d with drainedBatches := d.drainedBatches + 1 }, some (.items n))
  | .items n => ({ d with drainedItems := d.drainedItems + n }, some (.lock n))
  | .lock n => if d.queue.held then (d, some (.lock n)) else (d.setHeld true, some (.loop n))
  | .loop (k + 1) => ({ d with nextId := d.nextId + 1 }, some (.push k d.nextId))
  | .loop 0 => (d.setHeld false, none)
  | .push k id =>
      let d := d.pushBack id
      ({ d with hist := { d.hist with drained := d.hist.drained + 1 } }, some (.loop k))

end InnerFullAccessor

/-- `pend_submit`. -/
def InnerPendAccessor.pendSubmit (d : DemoInner) : DemoInner :=
  { d with
    pendingSubmit := d.pendingSubmit + 1
    hist := { d.hist with pends := d.hist.pends + 1 } }

/-! ## Closures over the accessors -/

/-- What a Full closure may do next; `next` continues the method it is in. -/
inductive FullCall where
  | submitDirect
  | processSome (budget : Nat)
  | queueLen
  | runPendedOp
  | load (counter : DemoInner.Counter)
  /-- `full_entries.fetch_add(1)`. -/
  | addFullEntries
  | next
  deriving DecidableEq

/-- Where a Full closure is: in its own code, with what its last call returned, or in a call. -/
inductive FullClosure where
  | ready (ret : Option Nat)
  | submitDirect (pc : SubmitDirect)
  | processSome (pc : ProcessSome)
  | queueLen (pc : QueueLen)
  | runPendedOp (pc : RunPended)
  deriving DecidableEq

/-- One atomic step of a Full closure. -/
def FullClosure.step (d : DemoInner) : FullClosure → FullCall → Option (DemoInner × FullClosure)
  | .ready _, .submitDirect => some (d, .submitDirect .draw)
  | .ready _, .processSome budget => some (d, .processSome (.lock budget))
  | .ready _, .queueLen => some (d, .queueLen .lock)
  | .ready _, .runPendedOp => some (d, .runPendedOp .swap)
  | .ready _, .load counter => some (d, .ready (some (d.load counter)))
  | .ready _, .addFullEntries =>
      some ({ d with fullEntries := d.fullEntries + 1 }, .ready (some d.fullEntries))
  | .submitDirect pc, .next =>
      match InnerFullAccessor.submitDirect d pc with
      | (d', some pc') => some (d', .submitDirect pc')
      | (d', none) => some (d', .ready none)
  | .processSome pc, .next =>
      match InnerFullAccessor.processSome d pc with
      | (d', .inl pc') => some (d', .processSome pc')
      | (d', .inr n) => some (d', .ready (some n))
  | .queueLen pc, .next =>
      match InnerFullAccessor.queueLen d pc with
      | (d', .inl pc') => some (d', .queueLen pc')
      | (d', .inr len) => some (d', .ready (some len))
  | .runPendedOp pc, .next =>
      match InnerFullAccessor.runPendedOp d pc with
      | (d', some pc') => some (d', .runPendedOp pc')
      | (d', none) => some (d', .ready none)
  | _, _ => none

/-- The closure is in its own code. -/
def FullClosure.isReady : FullClosure → Bool
  | .ready _ => true
  | _ => false

/-- What a PendOnly closure may do next. -/
inductive PendCall where
  | pendSubmit
  /-- `pend_entries.fetch_add(1)`. -/
  | addPendEntries
  deriving DecidableEq

/-- Where a PendOnly closure is: how many submissions it has recorded. -/
structure PendClosure where
  recorded : Nat
  deriving DecidableEq

/-- One atomic step of a PendOnly closure. -/
def PendClosure.step (d : DemoInner) (a : PendClosure) : PendCall → Option (DemoInner × PendClosure)
  | .pendSubmit => some (InnerPendAccessor.pendSubmit d, ⟨a.recorded + 1⟩)
  | .addPendEntries => some ({ d with pendEntries := d.pendEntries + 1 }, a)

/-- PendOnly access draws no ids, and takes nothing back. -/
theorem PendClosure.step_hist {d d' : DemoInner} {a a' : PendClosure} {k : PendCall}
    (h : a.step d k = some (d', a')) :
    d'.hist.directs = d.hist.directs ∧ d.hist.pends ≤ d'.hist.pends := by
  cases k with
  | pendSubmit =>
      cases h
      exact ⟨rfl, Nat.le_succ _⟩
  | addPendEntries =>
      cases h
      exact ⟨rfl, Nat.le_refl _⟩

theorem FullClosure.step_live (d : DemoInner) (a : FullClosure) (h : a.isReady = false) :
    ∃ k, (a.step d k).isSome := by
  refine ⟨.next, ?_⟩
  cases a with
  | ready ret => cases h
  | submitDirect pc | processSome pc | queueLen pc | runPendedOp pc =>
      simp only [FullClosure.step]
      split <;> rfl

/-! ## What Full access does to the content -/

/-- Everything one atomic step with Full access can do to the content. -/
inductive FullEffect (d : DemoInner) : DemoInner → Prop where
  | none : FullEffect d d
  | setHeld (held : Bool) : FullEffect d (d.setHeld held)
  | drawDirect : FullEffect d
      { d with nextId := d.nextId + 1, hist := { d.hist with directs := d.hist.directs + 1 } }
  | drawDrained : FullEffect d { d with nextId := d.nextId + 1 }
  | pushDirect (id : Nat) : FullEffect d (d.pushBack id)
  | pushDrained (id : Nat) : FullEffect d
      { d.pushBack id with hist := { d.hist with drained := d.hist.drained + 1 } }
  | countDirect : FullEffect d { d with directItems := d.directItems + 1 }
  | pop (id : Nat) (rest : List Nat) : d.queue.items = id :: rest → FullEffect d
      { d with
        queue := { d.queue with items := rest }
        hist := { d.hist with popped := d.hist.popped ++ [id] } }
  | countProcessed : FullEffect d { d with processed := d.processed + 1 }
  | takePended : FullEffect d { d with pendingSubmit := 0 }
  | countBatch : FullEffect d { d with drainedBatches := d.drainedBatches + 1 }
  | countDrained (n : Nat) : FullEffect d { d with drainedItems := d.drainedItems + n }
  | countEntry : FullEffect d { d with fullEntries := d.fullEntries + 1 }

theorem submitDirect_effect (d : DemoInner) (pc : SubmitDirect) :
    FullEffect d (InnerFullAccessor.submitDirect d pc).1 := by
  cases pc with
  | draw => exact .drawDirect
  | lock id =>
      simp only [InnerFullAccessor.submitDirect]
      split
      · exact .none
      · exact .setHeld true
  | push id => exact .pushDirect id
  | count => exact .countDirect
  | unlock => exact .setHeld false

theorem processSome_effect (d : DemoInner) (pc : ProcessSome) :
    FullEffect d (InnerFullAccessor.processSome d pc).1 := by
  cases pc with
  | lock budget =>
      simp only [InnerFullAccessor.processSome]
      split
      · exact .none
      · exact .setHeld true
  | loop budget n =>
      simp only [InnerFullAccessor.processSome]
      split
      · split
        · rename_i id rest hq
          exact .pop id rest hq
        · exact .none
      · exact .none
  | count budget n => exact .countProcessed
  | unlock n => exact .setHeld false

theorem queueLen_effect (d : DemoInner) (pc : QueueLen) :
    FullEffect d (InnerFullAccessor.queueLen d pc).1 := by
  cases pc with
  | lock =>
      simp only [InnerFullAccessor.queueLen]
      split
      · exact .none
      · exact .setHeld true
  | read => exact .none
  | unlock len => exact .setHeld false

theorem runPendedOp_effect (d : DemoInner) (pc : RunPended) :
    FullEffect d (InnerFullAccessor.runPendedOp d pc).1 := by
  cases pc with
  | swap => exact .takePended
  | batches n => exact .countBatch
  | items n => exact .countDrained n
  | lock n =>
      simp only [InnerFullAccessor.runPendedOp]
      split
      · exact .none
      · exact .setHeld true
  | loop k =>
      cases k with
      | zero => exact .setHeld false
      | succ k => exact .drawDrained
  | push k id => exact .pushDrained id

theorem FullClosure.step_effect {d d' : DemoInner} {a a' : FullClosure} {k : FullCall}
    (h : a.step d k = some (d', a')) : FullEffect d d' := by
  cases a with
  | ready ret =>
      cases k <;> simp only [FullClosure.step, Option.some.injEq, Prod.mk.injEq, reduceCtorEq] at h
      case addFullEntries => obtain ⟨rfl, -⟩ := h; exact .countEntry
      all_goals obtain ⟨rfl, -⟩ := h; exact .none
  | submitDirect pc =>
      have he := submitDirect_effect d pc
      cases k <;> simp only [FullClosure.step, reduceCtorEq] at h
      split at h <;> rename_i hm <;> cases h <;> rw [hm] at he <;> exact he
  | processSome pc =>
      have he := processSome_effect d pc
      cases k <;> simp only [FullClosure.step, reduceCtorEq] at h
      split at h <;> rename_i hm <;> cases h <;> rw [hm] at he <;> exact he
  | queueLen pc =>
      have he := queueLen_effect d pc
      cases k <;> simp only [FullClosure.step, reduceCtorEq] at h
      split at h <;> rename_i hm <;> cases h <;> rw [hm] at he <;> exact he
  | runPendedOp pc =>
      have he := runPendedOp_effect d pc
      cases k <;> simp only [FullClosure.step, reduceCtorEq] at h
      split at h <;> rename_i hm <;> cases h <;> rw [hm] at he <;> exact he

/-- Full access only ever takes from `pending_submit`. -/
theorem FullEffect.pendingSubmit_le {d d' : DemoInner} (h : FullEffect d d') :
    d'.pendingSubmit ≤ d.pendingSubmit := by
  cases h with
  | takePended => exact Nat.zero_le _
  | _ => exact Nat.le_refl _

/-- Full access records nothing. -/
theorem FullEffect.pends_eq {d d' : DemoInner} (h : FullEffect d d') :
    d'.hist.pends = d.hist.pends := by
  cases h <;> rfl

theorem FullEffect.directs_le {d d' : DemoInner} (h : FullEffect d d') :
    d.hist.directs ≤ d'.hist.directs := by
  cases h with
  | drawDirect => exact Nat.le_succ _
  | _ => exact Nat.le_refl _

theorem FullEffect.processed_le {d d' : DemoInner} (h : FullEffect d d') :
    d.processed ≤ d'.processed := by
  cases h with
  | countProcessed => exact Nat.le_succ _
  | _ => exact Nat.le_refl _

/-- `impl AllowPendOp for DemoInner`, with `impl RunPendedOp for InnerFullAccessor`. -/
instance : AllowPendOp DemoInner where
  FullAccessor := FullClosure
  PendOnlyAccessor := PendClosure
  RunPendedOp := RunPended
  FullCall := FullCall
  PendCall := PendCall
  fullAccess := .ready none
  pendOnlyAccess := ⟨0⟩
  runPendedOp := .swap
  full := fun d a k => a.step d k
  fullReady := FullClosure.isReady
  pend := fun d a k => a.step d k
  pendReady := fun _ => true
  run := InnerFullAccessor.runPendedOp
  full_live := FullClosure.step_live
  pend_live := fun _ _ h => absurd h (by decide)

/-- Where a thread of the demo is in `with_access`. -/
abbrev DemoPhase := Phase DemoInner

/-- The next step of a closure locks the queue mutex. -/
def FullClosure.locksQueue : FullClosure → Bool
  | .submitDirect (.lock _) | .processSome (.lock _) | .queueLen .lock
  | .runPendedOp (.lock _) => true
  | _ => false

def RunPended.locksQueue : RunPended → Bool
  | .lock _ => true
  | _ => false

/-- The next step of an access locks the queue mutex. -/
def Phase.locksQueue : DemoPhase → Bool
  | .full a => FullClosure.locksQueue a
  | .dropRun r => RunPended.locksQueue r
  | _ => false

/-- What a thread of the demo may do next. -/
abbrev DemoAct := Act DemoInner

/-- What a step of an access does to the content. -/
theorem withAccess_effect {s s' : SoftLock DemoInner} {p p' : DemoPhase} {act : DemoAct}
    (h : SoftLock.withAccess s p act = some (s', p')) :
    FullEffect s.content s'.content
      ∨ ∃ k a a', act = .pend k ∧ PendClosure.step s.content a k = some (s'.content, a') := by
  cases act with
  | full k =>
      obtain ⟨a, a', d, rfl, rfl, rfl, hf⟩ := SoftLock.withAccess_full h
      exact Or.inl (FullClosure.step_effect hf)
  | pend k =>
      obtain ⟨a, a', d, rfl, rfl, rfl, hf⟩ := SoftLock.withAccess_pend h
      exact Or.inr ⟨k, a, a', rfl, hf⟩
  | exit u =>
      cases SoftLock.withAccess_cases h with
      | fullExit _ | pendExit _ => exact Or.inl .none
      | _ => simp [SoftLock.withAccess] at h
  | step =>
      cases SoftLock.withAccess_cases h with
      | full _ | pend _ => simp [SoftLock.withAccess, AccessGuard.drop] at h
      | @run r d r' hr =>
          have he := runPendedOp_effect s.content r
          rw [show InnerFullAccessor.runPendedOp s.content r = (d, some r') from hr] at he
          exact Or.inl he
      | @runEnd r d hr =>
          have he := runPendedOp_effect s.content r
          rw [show InnerFullAccessor.runPendedOp s.content r = (d, none) from hr] at he
          exact Or.inl he
      | _ => exact Or.inl .none

/-- Two threads have a first one. It is named, so that every run of two threads uses this proof. -/
instance two_threads : NeZero 2 := ⟨Nat.succ_ne_zero 1⟩

/-- Thread 0 gets Full access and submits directly; thread 1 is turned away meanwhile and records
a submission; thread 0's `drop` finds it and stops with the id for it in hand. -/
def sampleRun : List (Fin 2 × DemoAct) :=
  [(0, .step), (0, .full .submitDirect), (0, .full .next), (0, .full .next), (1, .step),
    (0, .full .next), (0, .full .next), (0, .full .next), (1, .pend .pendSubmit), (1, .exit false),
    (1, .step), (0, .exit false), (0, .step), (0, .step), (0, .step), (0, .step), (0, .step),
    (0, .step)]

theorem sampleRun_possible :
    ∃ c, exec SoftLock.step (fresh DemoInner.new) sampleRun = some c :=
  Option.isSome_iff_exists.mp (by decide +kernel)

end Hopter
