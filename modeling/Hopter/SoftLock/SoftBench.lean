import Hopter.SoftLock.Harness
import Hopter.SoftLock.Ledger

/-!
# `run_softlock_bench`

The threads of the benchmark over the soft lock, and why its checks at the end
cannot fail. The consumer decides to stop from four values it reads at four
different moments. What makes that sound is an order: it has seen the producers
done before it reads that nothing is pended, and knows that before it reads that
the queue is empty, so at that last read every submission has been processed.
-/

namespace Hopter

open Conc

/-! ## The texts -/

/-- Points of a producer inside an access, and the one it is at outside. -/
inductive ProducerPoint where
  /-- Before `full_entries.fetch_add(1)`, or `pend_entries`. -/
  | countEntry
  /-- Before `submit_direct()`, or `pend_submit()`. -/
  | submit
  /-- The submission was made. -/
  | leave
  deriving DecidableEq

/-- A producer, with the number of rounds it has not begun. -/
structure SoftProducer where
  left : Nat
  pc : ProducerPoint

/-- Points of the consumer's closure; what a call returned is in the phase. -/
inductive SoftConsumer where
  /-- Before `pending_before` is read. -/
  | loadPendingBefore
  | runPendedOp
  | processSome
  /-- Before `processed` is read. -/
  | loadProcessed
  /-- With `processed` read. -/
  | testProcessed
  | loadPending (producersFinished : Bool)
  /-- With `pending` read, before `queue_len()`. -/
  | queueLen (producersFinished : Bool)
  /-- With the queue length read. -/
  | decide (producersFinished : Bool) (pending : Nat)
  /-- The closure returns, with whether to go on. -/
  | leave (again : Bool)
  deriving DecidableEq

/-- What the last access reads of the end of the benchmark. -/
structure Checked where
  processed : Nat
  pending : Nat
  queueLeft : Nat

/-- Points of the main thread from its own access on. -/
inductive SoftCheck where
  | loadProcessed
  /-- With `processed` read. -/
  | loadPending
  /-- With `pending` read, before `queue_len()`. -/
  | queueLen (processed : Nat)
  /-- With the queue length read. -/
  | loadStats (processed pending : Nat)
  /-- Reading the rest of the tuple, which goes into the result. -/
  | stats (checked : Checked) (left : List DemoInner.Counter) (read : List Nat)
  /-- Before the assertions. -/
  | asserts (checked : Checked) (read : List Nat)
  /-- The function returned, with `full_entries`, `pend_entries`, `drained_items` and
  `drained_batches`. -/
  | finished (read : List Nat)
  | panicked (message : String)

/-- A thread goes on with the method it is in, or with `drop`. -/
def goOn : DemoPhase → DemoAct
  | .full _ => .full FullCall.next
  | _ => .step

/-- The closure of `thread::spawn` in the loop over `s.producers`. -/
def runSoftlockBench.producer (t : SoftProducer) :
    DemoPhase → Todo (SoftLock DemoInner) DemoAct SoftProducer
  | .idle =>
      match t.left with
      | 0 => .exit
      | left + 1 => .act .step ⟨left, .countEntry⟩
  | .full (FullClosure.ready _) =>
      match t.pc with
      | .countEntry => .act (.full FullCall.addFullEntries) ⟨t.left, .submit⟩
      | .submit => .act (.full FullCall.submitDirect) ⟨t.left, .leave⟩
      | .leave => .act (.exit false) t
  | .pend _ =>
      match t.pc with
      | .countEntry => .act (.pend PendCall.addPendEntries) ⟨t.left, .submit⟩
      | .submit => .act (.pend PendCall.pendSubmit) ⟨t.left, .leave⟩
      | .leave => .act (.exit false) t
  | p => .act (goOn p) t

/-- The closure the consumer thread runs. -/
def runSoftlockBench.consumer (s : Scenario) (t : SoftConsumer) :
    DemoPhase → Todo (SoftLock DemoInner) DemoAct SoftConsumer
  | .idle =>
      match t with
      | .leave false => .exit
      | _ => .act .step .loadPendingBefore
  | .full (FullClosure.ready ret) =>
      match t, ret with
      | .loadPendingBefore, _ => .act (.full (FullCall.load .pendingSubmit)) .runPendedOp
      | .runPendedOp, _ => .act (.full FullCall.runPendedOp) .processSome
      | .processSome, _ => .act (.full (FullCall.processSome s.consumerBudget)) .loadProcessed
      | .loadProcessed, _ => .act (.full (FullCall.load .processed)) .testProcessed
      | .testProcessed, some processed =>
          if processed ≥ s.totalOps then .act (.exit false) (.leave false)
          else .loadDone .loadPending
      | .loadPending finished, _ => .act (.full (FullCall.load .pendingSubmit)) (.queueLen finished)
      | .queueLen finished, some pending =>
          .act (.full FullCall.queueLen) (.decide finished pending)
      | .decide finished pending, some queueLen =>
          .act (.exit false) (.leave (!(finished && pending == 0 && queueLen == 0)))
      | t, _ => .act (.exit false) t
  | .pend _ => .act (.exit false) (.leave true)
  | p => .act (goOn p) t

/-- The access of the main thread after the joins, and the assertions. -/
def runSoftlockBench.check (s : Scenario) (t : SoftCheck) :
    DemoPhase → Todo (SoftLock DemoInner) DemoAct SoftCheck
  | .idle =>
      match t with
      | .asserts checked read =>
          if checked.processed ≠ s.totalOps then .goto (.panicked "softlock processed mismatch")
          else if checked.pending ≠ 0 then .goto (.panicked "softlock pending should be empty")
          else if checked.queueLeft ≠ 0 then .goto (.panicked "softlock queue should be empty")
          else .goto (.finished read)
      | .finished _ | .panicked _ => .exit
      | _ => .act .step .loadProcessed
  | .full (FullClosure.ready ret) =>
      match t, ret with
      | .loadProcessed, _ => .act (.full (FullCall.load .processed)) .loadPending
      | .loadPending, some processed =>
          .act (.full (FullCall.load .pendingSubmit)) (.queueLen processed)
      | .queueLen processed, some pending =>
          .act (.full FullCall.queueLen) (.loadStats processed pending)
      | .loadStats processed pending, some queueLeft =>
          .act (.full (FullCall.load .fullEntries))
            (.stats ⟨processed, pending, queueLeft⟩
              [.pendEntries, .drainedItems, .drainedBatches] [])
      | .stats checked (counter :: left) read, some value =>
          .act (.full (FullCall.load counter)) (.stats checked left (read ++ [value]))
      | .stats checked [] read, some value =>
          .act (.exit false) (.asserts checked (read ++ [value]))
      | t, _ => .act (.exit false) t
  | .pend _ =>
      .act (.exit true) (.panicked "internal error: entered unreachable code: all workers joined")
  | p => .act (goOn p) t

/-- `run_softlock_bench`. -/
def runSoftlockBench (s : Scenario) :
    BenchText (SoftLock DemoInner) DemoPhase DemoAct SoftProducer SoftConsumer SoftCheck where
  producer := runSoftlockBench.producer
  consumer := runSoftlockBench.consumer s
  check := runSoftlockBench.check s
  start := .loadProcessed

/-- The threads of `run_softlock_bench`. -/
abbrev SoftBench (s : Scenario) :=
  Bench s.producers (SoftLock DemoInner) DemoPhase SoftProducer SoftConsumer SoftCheck

abbrev SoftBench.step (s : Scenario) : SoftBench s → Tid s.producers → Option (SoftBench s) :=
  Bench.step SoftLock.withAccess (runSoftlockBench s)

/-- Everything spawned, nothing run. -/
def SoftBench.init (s : Scenario) : SoftBench s :=
  Bench.init (SoftLock.new DemoInner.new) .idle ⟨s.opsPerProducer, .leave⟩ (.leave true)

/-! ## Submissions made, and submissions to make -/

/-- The submissions so far. -/
def DemoInner.made (d : DemoInner) : Nat := d.hist.directs + d.hist.pends

def SubmitDirect.draws : SubmitDirect → Nat
  | .draw => 1
  | _ => 0

/-- Whether the next step of a closure makes a submission. -/
def FullClosure.draws : FullClosure → Nat
  | .submitDirect pc => pc.draws
  | _ => 0

def Phase.draws : DemoPhase → Nat
  | .full a => FullClosure.draws a
  | _ => 0

/-- The call of a submission. -/
def Act.submits : DemoAct → Nat
  | .full FullCall.submitDirect => 1
  | .pend PendCall.pendSubmit => 1
  | _ => 0

theorem submitDirect_made (d : DemoInner) (pc : SubmitDirect) :
    (InnerFullAccessor.submitDirect d pc).1.made
      + (InnerFullAccessor.submitDirect d pc).2.elim 0 SubmitDirect.draws = d.made + pc.draws := by
  cases pc with
  | draw =>
      show d.hist.directs + 1 + d.hist.pends + 0 = d.hist.directs + d.hist.pends + 1
      omega
  | lock id =>
      simp only [InnerFullAccessor.submitDirect]
      split <;> rfl
  | push id | count | unlock => rfl

theorem processSome_made (d : DemoInner) (pc : ProcessSome) :
    (InnerFullAccessor.processSome d pc).1.made = d.made := by
  cases pc with
  | lock budget =>
      simp only [InnerFullAccessor.processSome]
      split <;> rfl
  | loop budget m =>
      simp only [InnerFullAccessor.processSome]
      split
      · split <;> rfl
      · rfl
  | count budget m | unlock m => rfl

theorem queueLen_made (d : DemoInner) (pc : QueueLen) :
    (InnerFullAccessor.queueLen d pc).1.made = d.made := by
  cases pc with
  | lock =>
      simp only [InnerFullAccessor.queueLen]
      split <;> rfl
  | read | unlock len => rfl

theorem runPendedOp_made (d : DemoInner) (pc : RunPended) :
    (InnerFullAccessor.runPendedOp d pc).1.made = d.made := by
  cases pc with
  | lock m =>
      simp only [InnerFullAccessor.runPendedOp]
      split <;> rfl
  | loop m => cases m <;> rfl
  | swap | batches m | items m | push m id => rfl

/-- A Full closure submits when it calls `submit_direct`, and the submission is made when the id
is drawn. -/
theorem FullClosure.step_made {d d' : DemoInner} {a a' : FullClosure} {k : FullCall}
    (h : a.step d k = some (d', a')) :
    d'.made + a'.draws = d.made + a.draws + Act.submits (.full k) := by
  cases a with
  | ready ret =>
      cases k <;> cases h <;> rfl
  | submitDirect pc =>
      have hm := submitDirect_made d pc
      cases k <;> simp only [FullClosure.step, reduceCtorEq] at h
      split at h <;> rename_i he <;> cases h <;> rw [he] at hm <;> exact hm
  | processSome pc =>
      have hm := processSome_made d pc
      cases k <;> simp only [FullClosure.step, reduceCtorEq] at h
      split at h <;> rename_i he <;> cases h <;> rw [he] at hm <;> exact congrArg (· + 0) hm
  | queueLen pc =>
      have hm := queueLen_made d pc
      cases k <;> simp only [FullClosure.step, reduceCtorEq] at h
      split at h <;> rename_i he <;> cases h <;> rw [he] at hm <;> exact congrArg (· + 0) hm
  | runPendedOp pc =>
      have hm := runPendedOp_made d pc
      cases k <;> simp only [FullClosure.step, reduceCtorEq] at h
      split at h <;> rename_i he <;> cases h <;> rw [he] at hm <;> exact congrArg (· + 0) hm

theorem draws_of_ready {a : AllowPendOp.FullAccessor DemoInner}
    (h : AllowPendOp.fullReady a = true) : (Phase.full a).draws = 0 := by
  change FullClosure at a
  cases a with
  | ready ret => rfl
  | _ => cases h

/-- What a step of an access does to the submissions, by what it calls. -/
theorem withAccess_made {s s' : SoftLock DemoInner} {p p' : DemoPhase} {act : DemoAct}
    (h : SoftLock.withAccess s p act = some (s', p')) :
    s'.content.made + p'.draws = s.content.made + p.draws + act.submits := by
  cases act with
  | full k =>
      obtain ⟨a, a', d, rfl, rfl, rfl, hf⟩ := SoftLock.withAccess_full h
      exact FullClosure.step_made hf
  | pend k =>
      obtain ⟨a, a', d, rfl, rfl, rfl, hf⟩ := SoftLock.withAccess_pend h
      cases k <;> cases hf <;> rfl
  | exit u =>
      cases SoftLock.withAccess_cases h with
      | fullExit hr => rw [draws_of_ready hr]; rfl
      | pendExit _ => rfl
      | _ => simp [SoftLock.withAccess] at h
  | step =>
      cases SoftLock.withAccess_cases h with
      | full _ | pend _ | fullExit _ => simp [SoftLock.withAccess, AccessGuard.drop] at h
      | @run r d r' hr =>
          have hm := runPendedOp_made s.content r
          rw [show InnerFullAccessor.runPendedOp s.content r = (d, some r') from hr] at hm
          exact congrArg (· + 0) hm
      | @runEnd r d hr =>
          have hm := runPendedOp_made s.content r
          rw [show InnerFullAccessor.runPendedOp s.content r = (d, none) from hr] at hm
          exact congrArg (· + 0) hm
      | _ => rfl

/-! ## The producers submit what they were told to -/

/-- In a closure's own code. -/
def Phase.InClosure : DemoPhase → Prop
  | .full (FullClosure.ready _) | .pend _ => True
  | _ => False

namespace SoftProducer

/-- The calls of a submission that are still to come. -/
def calls (t : SoftProducer) : Nat :=
  match t.pc with
  | .leave => t.left
  | _ => t.left + 1

/-- The submissions that are still to come. -/
def toSubmit (t : SoftProducer) (p : DemoPhase) : Nat := t.calls + p.draws

/-- A producer that has begun a round and not submitted yet is in the closure. -/
def Ok (t : SoftProducer) (p : DemoPhase) : Prop := t.pc = .leave ∨ p.InClosure

end SoftProducer

/-- Each step of a producer's text makes the calls it takes off the list. -/
theorem producer_calls {t t' : SoftProducer} {p : DemoPhase} {act : DemoAct}
    (hok : t.Ok p) (h : runSoftlockBench.producer t p = .act act t') :
    t'.calls + act.submits = t.calls := by
  unfold runSoftlockBench.producer at h
  unfold SoftProducer.calls
  split at h
  · -- outside: the next round begins
    have hpc : t.pc = .leave := hok.resolve_right id
    split at h
    · cases h
    · rename_i left hleft
      cases h
      rw [hpc, hleft]
      rfl
  · split at h <;> rename_i hpc <;> cases h <;> simp only [hpc] <;> rfl
  · split at h <;> rename_i hpc <;> cases h <;> simp only [hpc] <;> rfl
  · cases h
    cases p <;> rfl

theorem producer_ok {t t' : SoftProducer} {p p' : DemoPhase} {act : DemoAct}
    {s s' : SoftLock DemoInner} (hok : t.Ok p) (h : runSoftlockBench.producer t p = .act act t')
    (hs : SoftLock.withAccess s p act = some (s', p')) : t'.Ok p' := by
  unfold runSoftlockBench.producer at h
  split at h
  · split at h
    · cases h
    · cases h
      refine Or.inr ?_
      cases SoftLock.withAccess_cases hs with
      | guardFull _ => trivial
      | guardPend _ => trivial
  · split at h <;> rename_i hpc <;> cases h
    · cases hs
      exact Or.inr trivial
    · exact Or.inl rfl
    · exact Or.inl hpc
  · split at h <;> rename_i hpc <;> cases h
    · cases hs
      exact Or.inr trivial
    · exact Or.inl rfl
    · exact Or.inl hpc
  · rename_i hidle hfull hpend
    cases h
    refine Or.inl (hok.resolve_right fun hin => ?_)
    cases p with
    | full a =>
        change FullClosure at a
        cases a with
        | ready ret => exact hfull ret rfl
        | _ => exact hin
    | pend a => exact hpend a rfl
    | _ => exact hin

/-- A producer that is over has submitted everything. -/
theorem producer_exit {t : SoftProducer} {p : DemoPhase} (hok : t.Ok p)
    (h : runSoftlockBench.producer t p = .exit) : p = .idle ∧ t.toSubmit p = 0 := by
  unfold runSoftlockBench.producer at h
  split at h
  · split at h
    · rename_i hleft
      have hpc : t.pc = .leave := hok.resolve_right id
      refine ⟨rfl, ?_⟩
      unfold SoftProducer.toSubmit SoftProducer.calls
      rw [hpc, hleft]
      rfl
    · cases h
  · split at h <;> cases h
  · split at h <;> cases h
  · cases h

/-- The consumer and the main thread make no submissions. -/
theorem consumer_submits {s : Scenario} {t t' : SoftConsumer} {p : DemoPhase} {act : DemoAct}
    (h : runSoftlockBench.consumer s t p = .act act t') : act.submits = 0 := by
  unfold runSoftlockBench.consumer at h
  split at h
  · split at h <;> cases h
    rfl
  · split at h
    case h_5 => split at h <;> cases h; rfl
    all_goals cases h; rfl
  · cases h
    rfl
  · cases h
    cases p <;> rfl

theorem check_submits {s : Scenario} {t t' : SoftCheck} {p : DemoPhase} {act : DemoAct}
    (h : runSoftlockBench.check s t p = .act act t') : act.submits = 0 := by
  unfold runSoftlockBench.check at h
  split at h
  · split at h
    · split at h
      · cases h
      · split at h
        · cases h
        · split at h <;> cases h
    · cases h
    · cases h
    · cases h
      rfl
  · split at h <;> cases h <;> rfl
  · cases h
    rfl
  · cases h
    cases p <;> rfl

/-- The books of the benchmark: the submissions made and those still to come are `total_ops`. -/
structure SoftBooks (s : Scenario) (c : SoftBench s) : Prop where
  ok : ∀ p, (c.producer p).Ok (c.phase (.producer p))
  consumer : (c.phase .consumer).draws = 0
  main : (c.phase .main).draws = 0
  total : c.inner.content.made + c.toDo SoftProducer.toSubmit = s.totalOps

theorem producer_text (t : SoftProducer) (p : DemoPhase) :
    (∃ act t', runSoftlockBench.producer t p = .act act t')
      ∨ runSoftlockBench.producer t p = .exit := by
  unfold runSoftlockBench.producer
  split
  · split
    · exact Or.inr rfl
    · exact Or.inl ⟨_, _, rfl⟩
  · split <;> exact Or.inl ⟨_, _, rfl⟩
  · split <;> exact Or.inl ⟨_, _, rfl⟩
  · exact Or.inl ⟨_, _, rfl⟩

/-- Every step of a producer is a step of its access. -/
theorem producer_take {t t' : SoftProducer} {p p' : DemoPhase} {s s' : SoftLock DemoInner}
    {done : Bool}
    (h : (runSoftlockBench.producer t p).take SoftLock.withAccess s done p = some (s', p', t')) :
    ∃ act, runSoftlockBench.producer t p = .act act t'
      ∧ SoftLock.withAccess s p act = some (s', p') := by
  rcases Todo.take_cases h with hact | ⟨-, -, hno⟩
  · exact hact
  · rcases producer_text t p with ⟨act, t₁, htext⟩ | htext
    · exact absurd htext (hno act t₁)
    · rw [htext] at h
      cases h

/-- A thread that makes no calls of submissions, and is not in the middle of one, makes none. -/
theorem take_made {κ : Type} {todo : Todo (SoftLock DemoInner) DemoAct κ} {k : κ}
    {p p' : DemoPhase} {s s' : SoftLock DemoInner} {done : Bool}
    (hsub : ∀ act k', todo = .act act k' → act.submits = 0) (hdraws : p.draws = 0)
    (h : todo.take SoftLock.withAccess s done p = some (s', p', k)) :
    s'.content.made = s.content.made ∧ p'.draws = 0 := by
  rcases Todo.take_cases h with ⟨act, rfl, hP⟩ | ⟨rfl, rfl, -⟩
  · have hmade := withAccess_made hP
    have hzero := hsub act k rfl
    have hle : s.content.made ≤ s'.content.made := by
      unfold DemoInner.made
      rcases withAccess_effect hP with he | ⟨k, a, a', -, hpend⟩
      · have := he.pends_eq
        have := he.directs_le
        omega
      · obtain ⟨hdirects, hpends⟩ := PendClosure.step_hist hpend
        omega
    omega
  · exact ⟨rfl, hdraws⟩

theorem softBooks_step {s : Scenario} {c c' : SoftBench s} {t : Tid s.producers}
    (h : SoftBooks s c) (hs : SoftBench.step s c t = some c') : SoftBooks s c' := by
  obtain ⟨hok, hcons, hmain, htotal⟩ := h
  cases Bench.step_cases hs with
  | @producer p s' l' k ht =>
      obtain ⟨act, htext, hP⟩ := producer_take ht
      refine ⟨?_, hcons, hmain, ?_⟩
      · intro q
        by_cases hq : q = p
        · subst hq
          show (Function.update c.producer q k q).Ok
            (Function.update c.phase (.producer q) l' (.producer q))
          rw [Function.update_self, Function.update_self]
          exact producer_ok (hok q) htext hP
        · have hne : Tid.producer q ≠ Tid.producer p := fun he => hq (Tid.producer.inj he)
          show (Function.update c.producer p k q).Ok
            (Function.update c.phase (.producer p) l' (.producer q))
          rw [Function.update_of_ne hq, Function.update_of_ne hne]
          exact hok q
      · have hmade := withAccess_made hP
        have hcalls := producer_calls (hok p) htext
        have hsum := @Bench.toDo_producer _ _ _ _ _ _ SoftProducer.toSubmit c p s' l' k
        have hold : (c.producer p).toSubmit (c.phase (.producer p))
            = (c.producer p).calls + (c.phase (.producer p)).draws := rfl
        have hnew : k.toSubmit l' = k.calls + l'.draws := rfl
        show s'.content.made + _ = _
        omega
  | @consumer s' l' k ht =>
      obtain ⟨hmade, hdraws⟩ := take_made (fun _ _ => consumer_submits) hcons ht
      refine ⟨hok, hdraws, hmain, ?_⟩
      show s'.content.made + _ = _
      rw [Bench.toDo_other (fun _ he => by cases he), hmade]
      exact htotal
  | @check _ s' l' k _ ht =>
      obtain ⟨hmade, hdraws⟩ := take_made (fun _ _ => check_submits) hmain ht
      refine ⟨hok, hcons, hdraws, ?_⟩
      show s'.content.made + _ = _
      rw [Bench.toDo_other (fun _ he => by cases he), hmade]
      exact htotal
  | joinProducer _ _ | storeDone _ _ | joinConsumer _ _ => exact ⟨hok, hcons, hmain, htotal⟩

theorem softBooks_reachable {s : Scenario} {c : SoftBench s}
    (h : Reachable (SoftBench.step s) (SoftBench.init s) c) : SoftBooks s c := by
  refine h.invariant (I := SoftBooks s) ?_ (fun _ ih hs => softBooks_step ih hs)
  refine ⟨fun _ => Or.inl rfl, rfl, rfl, ?_⟩
  unfold SoftBench.init
  rw [Bench.toDo_init]
  show 0 + s.producers * (s.opsPerProducer + 0) = s.producers * s.opsPerProducer
  rw [Nat.zero_add, Nat.add_zero]

end Hopter
