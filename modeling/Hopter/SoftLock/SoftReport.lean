import Hopter.SoftLock.SoftBenchEnd

/-!
# What the benchmark of the soft lock reports

`SoftResult` holds four counters that no assertion looks at: how often a producer got
Full access and how often it was turned away, how many submissions were drained, and
in how many batches. They are counted at different points of different threads.
They agree all the same once everybody has been joined.
-/

namespace Hopter

open Conc

/-- What `SoftResult` has of the content. -/
def DemoInner.statistics (d : DemoInner) : List ℕ :=
  [d.fullEntries, d.pendEntries, d.drainedItems, d.drainedBatches]

theorem submitDirect_statistics (d : DemoInner) (pc : SubmitDirect) :
    (InnerFullAccessor.submitDirect d pc).1.statistics = d.statistics := by
  cases pc with
  | lock id =>
      simp only [InnerFullAccessor.submitDirect]
      split <;> rfl
  | draw | push id | count | unlock => rfl

theorem processSome_statistics (d : DemoInner) (pc : ProcessSome) :
    (InnerFullAccessor.processSome d pc).1.statistics = d.statistics := by
  cases pc with
  | lock budget =>
      simp only [InnerFullAccessor.processSome]
      split <;> rfl
  | loop budget n =>
      simp only [InnerFullAccessor.processSome]
      split
      · split <;> rfl
      · rfl
  | count budget n | unlock n => rfl

theorem queueLen_statistics (d : DemoInner) (pc : QueueLen) :
    (InnerFullAccessor.queueLen d pc).1.statistics = d.statistics := by
  cases pc with
  | lock =>
      simp only [InnerFullAccessor.queueLen]
      split <;> rfl
  | read | unlock len => rfl

/-! ## Batches -/

/-- There are no more batches than items, and no items without a batch. -/
def DemoInner.Batched (d : DemoInner) : Prop :=
  d.drainedBatches ≤ d.drainedItems ∧ (d.drainedBatches = 0 → d.drainedItems = 0)

theorem DemoInner.Batched.congr {d d' : DemoInner} (h : d.Batched)
    (heq : d'.statistics = d.statistics) : d'.Batched := by
  unfold statistics at heq
  simp only [List.cons.injEq, and_true] at heq
  unfold Batched
  rw [heq.2.2.1, heq.2.2.2]
  exact h

/-- A drain that goes on has something to drain, and counts the batch before the items. -/
def RunPended.Batched (d : DemoInner) : RunPended → Prop
  | .batches n => 0 < n ∧ d.Batched
  | .items n => 0 < n ∧ 0 < d.drainedBatches ∧ d.drainedBatches ≤ d.drainedItems + 1
  | _ => d.Batched

def Use.Batched (d : DemoInner) : Use DemoInner → Prop
  | .full (FullClosure.runPendedOp r) | .run r => r.Batched d
  | _ => d.Batched

theorem runPendedOp_batched {d : DemoInner} (pc : RunPended) (h : pc.Batched d) :
    ((InnerFullAccessor.runPendedOp d pc).2.elim DemoInner.Batched fun r d => r.Batched d)
      (InnerFullAccessor.runPendedOp d pc).1 := by
  cases pc with
  | swap =>
      simp only [InnerFullAccessor.runPendedOp]
      split
      · exact h
      · rename_i hne
        exact ⟨Nat.pos_of_ne_zero hne, h⟩
  | batches n =>
      obtain ⟨hpos, hle, -⟩ := h
      exact ⟨hpos, Nat.succ_pos _, Nat.succ_le_succ hle⟩
  | items n =>
      obtain ⟨hpos, hbatch, hle⟩ := h
      refine ⟨?_, fun hzero => ?_⟩
      · show d.drainedBatches ≤ d.drainedItems + n
        omega
      · exact absurd hzero (Nat.ne_of_gt hbatch)
  | lock n =>
      simp only [InnerFullAccessor.runPendedOp]
      split <;> exact h
  | loop k =>
      cases k with
      | zero => exact h
      | succ k => exact h
  | push k id => exact h

theorem contentInv_batched : ContentInv (T := DemoInner) fun d u => u.Batched d where
  enter := id
  full := by
    intro d a k d' a' h hs
    have hs : FullClosure.step d a k = some (d', a') := hs
    change FullClosure at a a'
    cases a with
    | ready ret =>
        cases k <;> cases hs <;> exact h
    | submitDirect pc =>
        have hm := DemoInner.Batched.congr h (submitDirect_statistics d pc)
        cases k <;> simp only [FullClosure.step, reduceCtorEq] at hs
        split at hs <;> rename_i he <;> cases hs <;> rw [he] at hm <;> exact hm
    | processSome pc =>
        have hm := DemoInner.Batched.congr h (processSome_statistics d pc)
        cases k <;> simp only [FullClosure.step, reduceCtorEq] at hs
        split at hs <;> rename_i he <;> cases hs <;> rw [he] at hm <;> exact hm
    | queueLen pc =>
        have hm := DemoInner.Batched.congr h (queueLen_statistics d pc)
        cases k <;> simp only [FullClosure.step, reduceCtorEq] at hs
        split at hs <;> rename_i he <;> cases hs <;> rw [he] at hm <;> exact hm
    | runPendedOp pc =>
        have hm := runPendedOp_batched pc h
        cases k <;> simp only [FullClosure.step, reduceCtorEq] at hs
        split at hs <;> rename_i he <;> cases hs <;> rw [he] at hm <;> exact hm
  exit := by
    intro d a h hr
    have hr : FullClosure.isReady a = true := hr
    cases a <;> simp only [FullClosure.isReady, Bool.false_eq_true] at hr
    exact h
  call := id
  run := by
    intro d r d' r' h hs
    have hm := runPendedOp_batched r h
    have hs : InnerFullAccessor.runPendedOp d r = (d', some r') := hs
    rw [hs] at hm
    exact hm
  ret := by
    intro d r d' h hs
    have hm := runPendedOp_batched r h
    have hs : InnerFullAccessor.runPendedOp d r = (d', none) := hs
    rw [hs] at hm
    exact hm
  pend := by
    intro d a k d' a' u h hs
    have hpend : u.Batched d' := by
      cases k with
      | pendSubmit | addPendEntries =>
          cases hs
          cases u with
          | none => exact h
          | run r => cases r <;> exact h
          | full a =>
              change FullClosure at a
              cases a with
              | runPendedOp r => cases r <;> exact h
              | _ => exact h
    exact hpend

/-! ## Entries -/

/-- The call counts a Full entry. -/
def Act.entersFull : DemoAct → ℕ
  | .full FullCall.addFullEntries => 1
  | _ => 0

def Act.entersPend : DemoAct → ℕ
  | .pend PendCall.addPendEntries => 1
  | _ => 0

def Act.submitsDirect : DemoAct → ℕ
  | .full FullCall.submitDirect => 1
  | _ => 0

def Act.submitsPended : DemoAct → ℕ
  | .pend PendCall.pendSubmit => 1
  | _ => 0

theorem runPendedOp_entries (d : DemoInner) (pc : RunPended) :
    (InnerFullAccessor.runPendedOp d pc).1.fullEntries = d.fullEntries
      ∧ (InnerFullAccessor.runPendedOp d pc).1.pendEntries = d.pendEntries := by
  cases pc with
  | lock n =>
      simp only [InnerFullAccessor.runPendedOp]
      split <;> exact ⟨rfl, rfl⟩
  | loop k => cases k <;> exact ⟨rfl, rfl⟩
  | swap | batches n | items n | push k id => exact ⟨rfl, rfl⟩

theorem entries_of_statistics {d d' : DemoInner} (h : d'.statistics = d.statistics) :
    d'.fullEntries = d.fullEntries ∧ d'.pendEntries = d.pendEntries := by
  unfold DemoInner.statistics at h
  simp only [List.cons.injEq, and_true] at h
  exact ⟨h.1, h.2.1⟩

/-- A Full closure counts an entry where it is told to. -/
theorem FullClosure.step_entries {d d' : DemoInner} {a a' : FullClosure} {k : FullCall}
    (h : a.step d k = some (d', a')) :
    d'.fullEntries = d.fullEntries + Act.entersFull (.full k) ∧ d'.pendEntries = d.pendEntries := by
  cases a with
  | ready ret =>
      cases k <;> cases h <;> exact ⟨rfl, rfl⟩
  | submitDirect pc =>
      have hm := entries_of_statistics (submitDirect_statistics d pc)
      cases k <;> simp only [FullClosure.step, reduceCtorEq] at h
      split at h <;> rename_i he <;> cases h <;> rw [he] at hm <;> exact hm
  | processSome pc =>
      have hm := entries_of_statistics (processSome_statistics d pc)
      cases k <;> simp only [FullClosure.step, reduceCtorEq] at h
      split at h <;> rename_i he <;> cases h <;> rw [he] at hm <;> exact hm
  | queueLen pc =>
      have hm := entries_of_statistics (queueLen_statistics d pc)
      cases k <;> simp only [FullClosure.step, reduceCtorEq] at h
      split at h <;> rename_i he <;> cases h <;> rw [he] at hm <;> exact hm
  | runPendedOp pc =>
      have hm := runPendedOp_entries d pc
      cases k <;> simp only [FullClosure.step, reduceCtorEq] at h
      split at h <;> rename_i he <;> cases h <;> rw [he] at hm <;> exact hm

/-- What a step of an access does to the entries and the submissions, by what it calls. -/
structure EntryStep (d d' : DemoInner) (p p' : DemoPhase) (act : DemoAct) : Prop where
  full : d'.fullEntries = d.fullEntries + act.entersFull
  pend : d'.pendEntries = d.pendEntries + act.entersPend
  pends : d'.hist.pends = d.hist.pends + act.submitsPended
  directs : d'.hist.directs + p'.draws = d.hist.directs + p.draws + act.submitsDirect

theorem withAccess_entries {s s' : SoftLock DemoInner} {p p' : DemoPhase} {act : DemoAct}
    (h : SoftLock.withAccess s p act = some (s', p')) :
    EntryStep s.content s'.content p p' act := by
  have hmade := withAccess_made h
  unfold DemoInner.made at hmade
  cases act with
  | full k =>
      obtain ⟨a, a', d, rfl, rfl, rfl, hf⟩ := SoftLock.withAccess_full h
      obtain ⟨hfull, hpend⟩ := FullClosure.step_entries hf
      have hpends : d.hist.pends = s.content.hist.pends := (FullClosure.step_effect hf).pends_eq
      refine ⟨hfull, hpend, hpends, ?_⟩
      have hsub : Act.submits (.full k : DemoAct) = Act.submitsDirect (.full k) := by
        cases k <;> rfl
      rw [← hsub]
      show d.hist.directs + _ = _
      dsimp only at hmade
      omega
  | pend k =>
      obtain ⟨a, a', d, rfl, rfl, rfl, hf⟩ := SoftLock.withAccess_pend h
      cases k <;> cases hf <;> exact ⟨rfl, rfl, rfl, rfl⟩
  | exit u =>
      cases SoftLock.withAccess_cases h with
      | fullExit hr => exact ⟨rfl, rfl, rfl, by rw [draws_of_ready hr]; rfl⟩
      | pendExit _ => exact ⟨rfl, rfl, rfl, rfl⟩
      | _ => simp [SoftLock.withAccess] at h
  | step =>
      cases SoftLock.withAccess_cases h with
      | full _ | pend _ | fullExit _ => simp [SoftLock.withAccess, AccessGuard.drop] at h
      | @run r d r' hr =>
          have hm := runPendedOp_entries s.content r
          have hmade := runPendedOp_made s.content r
          have hpends := (runPendedOp_effect s.content r).pends_eq
          rw [show InnerFullAccessor.runPendedOp s.content r = (d, some r') from hr]
            at hm hmade hpends
          refine ⟨hm.1, hm.2, hpends, ?_⟩
          unfold DemoInner.made at hmade
          show d.hist.directs + 0 = s.content.hist.directs + 0 + 0
          dsimp only at hmade hpends
          omega
      | @runEnd r d hr =>
          have hm := runPendedOp_entries s.content r
          have hmade := runPendedOp_made s.content r
          have hpends := (runPendedOp_effect s.content r).pends_eq
          rw [show InnerFullAccessor.runPendedOp s.content r = (d, none) from hr] at hm hmade hpends
          refine ⟨hm.1, hm.2, hpends, ?_⟩
          unfold DemoInner.made at hmade
          show d.hist.directs + 0 = s.content.hist.directs + 0 + 0
          dsimp only at hmade hpends
          omega
      | _ => exact ⟨rfl, rfl, rfl, rfl⟩

/-! ## The producers enter as often as they were told to -/

namespace SoftProducer

/-- The entries that are still to be counted. -/
def toEnter (t : SoftProducer) (_ : DemoPhase) : ℕ :=
  match t.pc with
  | .countEntry => t.left + 1
  | _ => t.left

/-- A Full entry was counted, and nothing submitted yet. -/
def fullDue (t : SoftProducer) (p : DemoPhase) : ℕ :=
  match t.pc, p with
  | .submit, .full _ => 1
  | _, p => p.draws

def pendDue (t : SoftProducer) (p : DemoPhase) : ℕ :=
  match t.pc, p with
  | .submit, .pend _ => 1
  | _, _ => 0

theorem fullDue_of_ne {t : SoftProducer} {p : DemoPhase} (h : t.pc ≠ .submit) :
    t.fullDue p = p.draws := by
  unfold fullDue
  split
  · rename_i hpc
    exact absurd hpc h
  · rfl

end SoftProducer

/-- **One step of a producer.** -/
theorem producer_entries {t t' : SoftProducer} {p p' : DemoPhase} {act : DemoAct}
    {s s' : SoftLock DemoInner} (hok : t.Ok p) (h : runSoftlockBench.producer t p = .act act t')
    (hs : SoftLock.withAccess s p act = some (s', p')) :
    t'.toEnter p' + act.entersFull + act.entersPend = t.toEnter p
      ∧ s'.content.hist.directs + t'.fullDue p'
        = s.content.hist.directs + t.fullDue p + act.entersFull
      ∧ t'.pendDue p' + act.submitsPended = t.pendDue p + act.entersPend := by
  have hdirects := (withAccess_entries hs).directs
  -- with nothing counted and not submitted
  have hquiet : t.pc ≠ .submit → t'.pc ≠ .submit → act.submitsDirect = 0 → act.entersFull = 0 →
      s'.content.hist.directs + t'.fullDue p'
        = s.content.hist.directs + t.fullDue p + act.entersFull := by
    intro hpc hpc' hsub henter
    rw [SoftProducer.fullDue_of_ne hpc, SoftProducer.fullDue_of_ne hpc']
    omega
  unfold runSoftlockBench.producer at h
  split at h
  · have hpc : t.pc = .leave := hok.resolve_right id
    split at h
    · cases h
    · rename_i left hleft
      cases h
      refine ⟨?_, hquiet (by rw [hpc]; decide) (fun heq => by cases heq) rfl rfl, ?_⟩
      · simp only [SoftProducer.toEnter, hpc, hleft]
        rfl
      · simp only [SoftProducer.pendDue, hpc]
        rfl
  · split at h <;> rename_i hpc <;> cases h
    · cases hs
      simp only [SoftProducer.toEnter, SoftProducer.fullDue, SoftProducer.pendDue, hpc]
      exact ⟨rfl, rfl, rfl⟩
    · cases hs
      simp only [SoftProducer.toEnter, SoftProducer.fullDue, SoftProducer.pendDue, hpc]
      exact ⟨rfl, rfl, rfl⟩
    · refine ⟨rfl, hquiet (by rw [hpc]; decide) (by rw [hpc]; decide) rfl rfl, ?_⟩
      simp only [SoftProducer.pendDue, hpc]
      rfl
  · split at h <;> rename_i hpc <;> cases h
    · cases hs
      simp only [SoftProducer.toEnter, SoftProducer.fullDue, SoftProducer.pendDue, hpc]
      exact ⟨rfl, rfl, rfl⟩
    · cases hs
      simp only [SoftProducer.toEnter, SoftProducer.fullDue, SoftProducer.pendDue, hpc]
      exact ⟨rfl, rfl, rfl⟩
    · refine ⟨rfl, hquiet (by rw [hpc]; decide) (by rw [hpc]; decide) rfl rfl, ?_⟩
      simp only [SoftProducer.pendDue, hpc]
      rfl
  · rename_i hidle hfull hpend
    cases h
    have hpc : t.pc = .leave := by
      refine hok.resolve_right fun hin => ?_
      cases p with
      | full a =>
          change FullClosure at a
          cases a with
          | ready ret => exact hfull ret rfl
          | _ => exact hin
      | pend a => exact hpend a rfl
      | _ => exact hin
    have hcalls : (goOn p).submitsDirect = 0 ∧ (goOn p).entersFull = 0 ∧ (goOn p).entersPend = 0
        ∧ (goOn p).submitsPended = 0 := by
      cases p <;> exact ⟨rfl, rfl, rfl, rfl⟩
    obtain ⟨h1, h2, h3, h4⟩ := hcalls
    refine ⟨?_, hquiet (by rw [hpc]; decide) (by rw [hpc]; decide) h1 h2, ?_⟩
    · rw [h2, h3]
      rfl
    · rw [h3, h4]
      simp only [SoftProducer.pendDue, hpc]

/-- The consumer and the main thread count no entries, and submit nothing. -/
def Act.Idle (act : DemoAct) : Prop :=
  act.entersFull = 0 ∧ act.entersPend = 0 ∧ act.submitsDirect = 0 ∧ act.submitsPended = 0

theorem goOn_idle (p : DemoPhase) : (goOn p).Idle := by
  cases p <;> exact ⟨rfl, rfl, rfl, rfl⟩

theorem consumer_idle {s : Scenario} {t t' : SoftConsumer} {p : DemoPhase} {act : DemoAct}
    (h : runSoftlockBench.consumer s t p = .act act t') : act.Idle := by
  unfold runSoftlockBench.consumer at h
  split at h
  · split at h <;> cases h
    exact ⟨rfl, rfl, rfl, rfl⟩
  · split at h
    case h_5 => split at h <;> cases h; exact ⟨rfl, rfl, rfl, rfl⟩
    all_goals cases h; exact ⟨rfl, rfl, rfl, rfl⟩
  · cases h
    exact ⟨rfl, rfl, rfl, rfl⟩
  · cases h
    exact goOn_idle p

theorem check_idle {s : Scenario} {t t' : SoftCheck} {p : DemoPhase} {act : DemoAct}
    (h : runSoftlockBench.check s t p = .act act t') : act.Idle := by
  unfold runSoftlockBench.check at h
  split at h
  · split at h
    · split at h
      · cases h
      · split at h
        · cases h
        · split at h <;> cases h
    · cases h
    · cases h
    · cases h
      exact ⟨rfl, rfl, rfl, rfl⟩
  · split at h <;> cases h <;> exact ⟨rfl, rfl, rfl, rfl⟩
  · cases h
    exact ⟨rfl, rfl, rfl, rfl⟩
  · cases h
    exact goOn_idle p

/-- What has been counted, and what is still to come. -/
structure EntryBooks (s : Scenario) (c : SoftBench s) : Prop where
  total : c.inner.content.fullEntries + c.inner.content.pendEntries
    + c.toDo SoftProducer.toEnter = s.totalOps
  full : c.inner.content.fullEntries
    = c.inner.content.hist.directs + c.toDo SoftProducer.fullDue
  pend : c.inner.content.pendEntries = c.inner.content.hist.pends + c.toDo SoftProducer.pendDue

/-- A thread that counts and submits nothing leaves everything as it is. -/
theorem take_entries {κ : Type} {todo : Todo (SoftLock DemoInner) DemoAct κ} {k : κ}
    {p p' : DemoPhase} {s s' : SoftLock DemoInner} {done : Bool}
    (hidle : ∀ act k', todo = .act act k' → act.Idle) (hdraws : p.draws = 0)
    (hdraws' : p'.draws = 0)
    (h : todo.take SoftLock.withAccess s done p = some (s', p', k)) :
    s'.content.fullEntries = s.content.fullEntries
      ∧ s'.content.pendEntries = s.content.pendEntries
      ∧ s'.content.hist.directs = s.content.hist.directs
      ∧ s'.content.hist.pends = s.content.hist.pends := by
  rcases Todo.take_cases h with ⟨act, rfl, hP⟩ | ⟨rfl, -, -⟩
  · obtain ⟨hfull, hpend, hpends, hdirects⟩ := withAccess_entries hP
    obtain ⟨h1, h2, h3, h4⟩ := hidle act k rfl
    refine ⟨?_, ?_, ?_, ?_⟩ <;> omega
  · exact ⟨rfl, rfl, rfl, rfl⟩

theorem entryBooks_step {s : Scenario} {c c' : SoftBench s} {t : Tid s.producers}
    (h : EntryBooks s c) (hbooks : SoftBooks s c) (hs : SoftBench.step s c t = some c') :
    EntryBooks s c' := by
  obtain ⟨htotal, hfull, hpend⟩ := h
  have hbooks' := softBooks_step hbooks hs
  cases Bench.step_cases hs with
  | @producer p s' l' k ht =>
      obtain ⟨act, htext, hP⟩ := producer_take ht
      obtain ⟨henter, hdue, hpended⟩ := producer_entries (hbooks.ok p) htext hP
      have hentries := withAccess_entries hP
      have h1 := hentries.full
      have h2 := hentries.pend
      have h3 := hentries.pends
      have hsum₁ := @Bench.toDo_producer _ _ _ _ _ _ SoftProducer.toEnter c p s' l' k
      have hsum₂ := @Bench.toDo_producer _ _ _ _ _ _ SoftProducer.fullDue c p s' l' k
      have hsum₃ := @Bench.toDo_producer _ _ _ _ _ _ SoftProducer.pendDue c p s' l' k
      refine ⟨?_, ?_, ?_⟩
      · show s'.content.fullEntries + s'.content.pendEntries + _ = _
        omega
      · show s'.content.fullEntries = s'.content.hist.directs + _
        omega
      · show s'.content.pendEntries = s'.content.hist.pends + _
        omega
  | @consumer s' l' k ht =>
      obtain ⟨h1, h2, h3, h4⟩ := take_entries (fun _ _ => consumer_idle) hbooks.consumer
        (by simpa using hbooks'.consumer) ht
      refine ⟨?_, ?_, ?_⟩
      · rw [Bench.toDo_other (fun _ he => by cases he), h1, h2]
        exact htotal
      · rw [Bench.toDo_other (fun _ he => by cases he), h1, h3]
        exact hfull
      · rw [Bench.toDo_other (fun _ he => by cases he), h2, h4]
        exact hpend
  | @check _ s' l' k _ ht =>
      obtain ⟨h1, h2, h3, h4⟩ := take_entries (fun _ _ => check_idle) hbooks.main
        (by simpa using hbooks'.main) ht
      refine ⟨?_, ?_, ?_⟩
      · rw [Bench.toDo_other (fun _ he => by cases he), h1, h2]
        exact htotal
      · rw [Bench.toDo_other (fun _ he => by cases he), h1, h3]
        exact hfull
      · rw [Bench.toDo_other (fun _ he => by cases he), h2, h4]
        exact hpend
  | joinProducer _ _ | storeDone _ _ | joinConsumer _ _ => exact ⟨htotal, hfull, hpend⟩

theorem entryBooks_reachable {s : Scenario} {c : SoftBench s}
    (h : Reachable (SoftBench.step s) (SoftBench.init s) c) : EntryBooks s c := by
  refine h.invariant (I := EntryBooks s) ?_
    (fun hr ih hs => entryBooks_step ih (softBooks_reachable hr) hs)
  unfold SoftBench.init
  refine ⟨?_, ?_, ?_⟩
  · rw [Bench.toDo_init]
    show 0 + 0 + s.producers * s.opsPerProducer = s.producers * s.opsPerProducer
    omega
  · rw [Bench.toDo_init]
    show 0 = 0 + s.producers * 0
    rw [Nat.mul_zero]
  · rw [Bench.toDo_init]
    show 0 = 0 + s.producers * 0
    rw [Nat.mul_zero]

/-! ## What the main thread reads -/

/-- Phases of the main thread: it only reads, and in `drop` it finds nothing to drain. -/
def Phase.Reads : DemoPhase → Prop
  | .idle | .full (FullClosure.ready _) | .full (FullClosure.queueLen _) | .dropSwap
  | .dropRun RunPended.swap | .dropStore | .dropLoad | .dropCas => True
  | _ => False

/-- The statistics, as they were read so far. -/
def SoftCheck.ReadsRight (d : DemoInner) (p : DemoPhase) : SoftCheck → Prop
  | .stats _ left read => ∀ v, p = .full (FullClosure.ready (some v)) →
      read ++ v :: left.map d.load = d.statistics
  | .asserts _ read | .finished read => read = d.statistics
  | _ => True

/-- With nothing pended a step of the main thread changes no statistics. -/
theorem reads_step {s s' : SoftLock DemoInner} {p p' : DemoPhase} {act : DemoAct}
    (hp : p.Reads) (hpending : s.content.pendingSubmit = 0) (hfull : ¬ p'.PendOnly)
    (hact : ∀ k, act = .full k → k = FullCall.next ∨ k = FullCall.queueLen ∨ ∃ c, k = .load c)
    (h : SoftLock.withAccess s p act = some (s', p')) :
    s'.content.statistics = s.content.statistics ∧ p'.Reads := by
  cases act with
  | full k =>
      obtain ⟨a, a', d, rfl, rfl, rfl, hf⟩ := SoftLock.withAccess_full h
      replace hf : FullClosure.step s.content a k = some (d, a') := hf
      change FullClosure at a a'
      cases a with
      | ready ret =>
          rcases hact k rfl with rfl | rfl | ⟨counter, rfl⟩ <;> cases hf <;> exact ⟨rfl, trivial⟩
      | queueLen pc =>
          have hm := queueLen_statistics s.content pc
          cases k <;> simp only [FullClosure.step, reduceCtorEq] at hf
          split at hf <;> rename_i he <;> cases hf <;> rw [he] at hm <;> exact ⟨hm, trivial⟩
      | submitDirect pc | processSome pc | runPendedOp pc => exact hp.elim
  | pend k =>
      obtain ⟨a, a', d, rfl, rfl, rfl, hf⟩ := SoftLock.withAccess_pend h
      exact hp.elim
  | exit u =>
      cases SoftLock.withAccess_cases h with
      | fullExit _ => exact ⟨rfl, trivial⟩
      | pendExit _ => exact hp.elim
      | _ => simp [SoftLock.withAccess] at h
  | step =>
      have hdrain : ∀ {r : RunPended}, (Phase.dropRun r : DemoPhase).Reads →
          InnerFullAccessor.runPendedOp s.content r
            = ({ s.content with pendingSubmit := 0 }, none) := by
        intro r hr
        cases r with
        | swap => simp only [InnerFullAccessor.runPendedOp, if_pos hpending]
        | _ => exact hr.elim
      cases SoftLock.withAccess_cases h with
      | full _ | pend _ | fullExit _ => simp [SoftLock.withAccess, AccessGuard.drop] at h
      | guardPend _ => exact absurd trivial hfull
      | @run r d r' hr =>
          replace hr : InnerFullAccessor.runPendedOp s.content r = (d, some r') := hr
          rw [hdrain hp] at hr
          cases hr
      | @runEnd r d hr =>
          replace hr : InnerFullAccessor.runPendedOp s.content r = (d, none) := hr
          rw [hdrain hp] at hr
          cases hr
          exact ⟨rfl, trivial⟩
      | pendExit _ | pendStore => exact hp.elim
      | _ => exact ⟨rfl, trivial⟩

/-- The main thread calls nothing that submits, processes or drains. -/
theorem check_calls {s : Scenario} {t t' : SoftCheck} {p : DemoPhase} {act : DemoAct}
    (h : runSoftlockBench.check s t p = .act act t') :
    ∀ k, act = .full k → k = FullCall.next ∨ k = FullCall.queueLen ∨ ∃ c, k = .load c := by
  intro k hk
  subst hk
  unfold runSoftlockBench.check at h
  split at h
  · split at h
    · split at h
      · cases h
      · split at h
        · cases h
        · split at h <;> cases h
    all_goals cases h
  · split at h <;> cases h
    · exact Or.inr (Or.inr ⟨_, rfl⟩)
    · exact Or.inr (Or.inr ⟨_, rfl⟩)
    · exact Or.inr (Or.inl rfl)
    · exact Or.inr (Or.inr ⟨_, rfl⟩)
    · exact Or.inr (Or.inr ⟨_, rfl⟩)
  · cases h
  · rename_i hidle hready hpend
    cases p with
    | full a =>
        cases h
        exact Or.inl rfl
    | _ => cases h

/-- The assertions touch nothing that is shared. -/
theorem check_cases (s : Scenario) (t : SoftCheck) (p : DemoPhase) :
    (∃ act t', runSoftlockBench.check s t p = .act act t')
      ∨ runSoftlockBench.check s t p = .exit
      ∨ (∃ message, runSoftlockBench.check s t p = .goto (.panicked message))
      ∨ ∃ checked read, t = .asserts checked read
        ∧ runSoftlockBench.check s t p = .goto (.finished read) := by
  unfold runSoftlockBench.check
  split
  · split
    · rename_i checked read
      split
      · exact Or.inr (Or.inr (Or.inl ⟨_, rfl⟩))
      · split
        · exact Or.inr (Or.inr (Or.inl ⟨_, rfl⟩))
        · split
          · exact Or.inr (Or.inr (Or.inl ⟨_, rfl⟩))
          · exact Or.inr (Or.inr (Or.inr ⟨checked, read, rfl, rfl⟩))
    · exact Or.inr (Or.inl rfl)
    · exact Or.inr (Or.inl rfl)
    · exact Or.inl ⟨_, _, rfl⟩
  · split <;> exact Or.inl ⟨_, _, rfl⟩
  · exact Or.inl ⟨_, _, rfl⟩
  · exact Or.inl ⟨_, _, rfl⟩

/-- **One step of the main thread's access.** -/
theorem check_reads {s : Scenario} {t t' : SoftCheck} {p p' : DemoPhase} {act : DemoAct}
    {l l' : SoftLock DemoInner} (hk : t.Right s p) (hr : t.ReadsRight l.content p)
    (htext : runSoftlockBench.check s t p = .act act t')
    (hs : SoftLock.withAccess l p act = some (l', p'))
    (hstat : l'.content.statistics = l.content.statistics) : t'.ReadsRight l'.content p' := by
  -- the tuple was read already
  have hafter : (∀ checked left read, t ≠ .stats checked left read) → t' = t →
      t'.ReadsRight l'.content p' := by
    rintro hno rfl
    cases t' with
    | stats checked left read => exact absurd rfl (hno _ _ _)
    | asserts checked read =>
        exact Eq.trans (show read = l.content.statistics from hr) hstat.symm
    | finished read => exact Eq.trans (show read = l.content.statistics from hr) hstat.symm
    | _ => trivial
  unfold runSoftlockBench.check at htext
  split at htext
  · split at htext
    · split at htext
      · cases htext
      · split at htext
        · cases htext
        · split at htext <;> cases htext
    · cases htext
    · cases htext
    · cases htext
      trivial
  · split at htext
    · cases htext
      trivial
    · cases htext
      trivial
    · cases htext
      trivial
    · cases htext
      cases hs
      intro v hv
      cases hv
      rfl
    · rename_i checked counter left read value
      cases htext
      cases hs
      intro v hv
      cases hv
      have hread := hr value rfl
      rw [List.append_assoc]
      exact hread
    · rename_i checked read value
      cases htext
      cases hs
      exact hr value rfl
    · rename_i h1 h2 h3 h4 h5 h6
      cases htext
      refine hafter (fun checked left read heq => ?_) rfl
      subst heq
      obtain ⟨v, hp⟩ := hk.2
      cases hp
      cases left with
      | nil => exact h6 _ _ _ rfl rfl
      | cons counter left => exact h5 _ _ _ _ _ rfl rfl
  · cases htext
    trivial
  · rename_i hidle hready hpend
    cases htext
    refine hafter (fun checked left read heq => ?_) rfl
    subst heq
    obtain ⟨v, hp⟩ := hk.2
    exact hready _ hp

namespace SoftBench

variable {s : Scenario}

/-- What the main thread does from its own access on. -/
structure MainReads (c : SoftBench s) : Prop where
  phase : (c.phase .main).Reads
  read : ∀ pc, c.main = .check pc → pc.ReadsRight c.inner.content (c.phase .main)

theorem mainReads_step {c c' : SoftBench s} {t : Tid s.producers}
    (hr : Reachable (step s) (init s) c) (h : MainReads c) (hs : step s c t = some c') :
    MainReads c' := by
  have hknown := known_reachable hr
  have hknown' := known_reachable (hr.tail hs)
  have hjoined := Bench.joined_reachable hr
  cases Bench.step_cases hs with
  | @producer p s' l' k ht =>
      refine ⟨h.phase, fun pc hpc => ?_⟩
      -- everybody has been joined by then
      have hexit := (hjoined.all hpc).1 p
      rw [Bench.Exited] at hexit
      rw [hexit] at ht
      cases ht
  | @consumer s' l' k ht =>
      refine ⟨h.phase, fun pc hpc => ?_⟩
      have hexit := (hjoined.all hpc).2
      rw [Bench.ConsumerExited] at hexit
      rw [hexit] at ht
      cases ht
  | @check pc s' l' k hm ht =>
      have hset := (main_finds hr hknown hm).1
      have hright : k.Right s l' := by
        have hright := hknown'.right k rfl
        simpa using hright
      suffices hsuff : l'.Reads ∧ k.ReadsRight s'.content l' by
        refine ⟨?_, fun pc' hpc' => ?_⟩
        · show (Function.update c.phase .main l' .main).Reads
          rw [Function.update_self]
          exact hsuff.1
        · cases hpc'
          show k.ReadsRight s'.content (Function.update c.phase .main l' .main)
          rw [Function.update_self]
          exact hsuff.2
      rcases Todo.take_cases ht with ⟨act, htext, hP⟩ | ⟨rfl, rfl, hno⟩
      · obtain ⟨hstat, hphase⟩ := reads_step h.phase hset.pendingSubmit hright.not_pendOnly
          (check_calls htext) hP
        exact ⟨hphase, check_reads (hknown.right pc hm) (h.read pc hm) htext hP hstat⟩
      · refine ⟨h.phase, ?_⟩
        have hread := h.read pc hm
        change (runSoftlockBench.check s pc (c.phase .main)).take _ _ _ _ = _ at ht
        change ∀ a k', runSoftlockBench.check s pc (c.phase .main) ≠ .act a k' at hno
        rcases check_cases s pc (c.phase .main) with ⟨act, t', htext⟩ | htext | ⟨message, htext⟩
          | ⟨checked, read, rfl, htext⟩
        · exact absurd htext (hno act t')
        · rw [htext] at ht
          cases ht
        · rw [htext] at ht
          cases ht
          trivial
        · rw [htext] at ht
          cases ht
          exact hread
  | joinProducer hm _ =>
      exact ⟨h.phase, fun pc hpc => by cases hpc⟩
  | storeDone hm _ =>
      exact ⟨h.phase, fun pc hpc => by cases hpc⟩
  | joinConsumer hm _ =>
      refine ⟨h.phase, fun pc hpc => ?_⟩
      cases hpc
      trivial

theorem mainReads_reachable {c : SoftBench s} (h : Reachable (step s) (init s) c) :
    MainReads c := by
  refine h.invariant (I := MainReads) ?_ (fun hr ih hs => mainReads_step hr ih hs)
  exact ⟨trivial, fun pc hpc => by cases hpc⟩

theorem batched {c : SoftBench s} (h : Reachable (step s) (init s) c)
    (hidle : ∀ t, c.phase t = .idle) : c.inner.content.Batched := by
  have howned := softLock_owned contentInv_batched ⟨Nat.le_refl 0, fun _ => rfl⟩
    (threads_reachable h)
  exact (owned_none howned fun t hhold => by
    rw [show c.threads.thread t = .idle from hidle t] at hhold
    exact hhold).2

end SoftBench

/-- **The report of the soft lock is consistent.** When `run_softlock_bench` returns, whatever the
schedule was, every operation was counted as one entry, Full or turned away; every one that was
turned away was drained, once; and no batch was empty. -/
theorem soft_report_consistent {s : Scenario} {c : SoftBench s}
    (h : Reachable (SoftBench.step s) (SoftBench.init s) c) {read : List ℕ}
    (hm : c.main = .check (.finished read)) :
    ∃ full pend items batches, read = [full, pend, items, batches]
      ∧ full + pend = s.totalOps ∧ items = pend ∧ batches ≤ items
      ∧ (batches = 0 → items = 0) := by
  have hread : read = c.inner.content.statistics := (SoftBench.mainReads_reachable h).read _ hm
  have hknown := SoftBench.known_reachable h
  obtain ⟨hexit, hcons⟩ := (Bench.joined_reachable h).all hm
  have hbooks := softBooks_reachable h
  have hentries := entryBooks_reachable h
  have hset := (SoftBench.main_finds h hknown hm).1
  have hidle : ∀ t, c.phase t = .idle := by
    intro t
    cases t with
    | producer p => exact (producer_exit (hbooks.ok p) (hexit p)).1
    | consumer => exact (consumer_exit hcons).1
    | main => exact hknown.right _ hm
  -- nobody has anything to do, or in hand
  have hzero : c.toDo SoftProducer.toEnter = 0 ∧ c.toDo SoftProducer.fullDue = 0
      ∧ c.toDo SoftProducer.pendDue = 0 := by
    refine ⟨Bench.toDo_exited fun p => ?_, Bench.toDo_exited fun p => ?_,
      Bench.toDo_exited fun p => ?_⟩
    · have hleft := (producer_exit (hbooks.ok p) (hexit p)).2
      unfold SoftProducer.toSubmit SoftProducer.calls at hleft
      unfold SoftProducer.toEnter
      split at hleft
      · rename_i hpc
        rw [hpc]
        exact Nat.eq_zero_of_add_eq_zero_right hleft
      · omega
    · rw [hidle]
      unfold SoftProducer.fullDue
      split
      · rename_i hphase
        cases hphase
      · rfl
    · rw [hidle]
      unfold SoftProducer.pendDue
      split
      · rename_i hphase
        cases hphase
      · rfl
  obtain ⟨henter, hfull, hpend⟩ := hzero
  have hlogged := (owned_none (demo_owned (SoftBench.threads_reachable h)) fun t hhold => by
    rw [show c.threads.thread t = .idle from hidle t] at hhold
    exact hhold).2.1.logged
  replace hlogged : c.inner.content.hist.pends
    = c.inner.content.pendingSubmit + c.inner.content.drainedItems + 0 := hlogged
  have htotal := hentries.total
  have hpended := hentries.pend
  have hnone := hset.pendingSubmit
  obtain ⟨hbatches, hempty⟩ := SoftBench.batched h hidle
  exact ⟨_, _, _, _, hread, by omega, by omega, hbatches, hempty⟩

/-- The report of the run in which one producer was turned away. -/
theorem soft_report_consistent_pended :
    ∃ c, exec (SoftBench.step ⟨2, 1, 1⟩) (SoftBench.init ⟨2, 1, 1⟩) pendedRun = some c
      ∧ c.main = .check (.finished [1, 1, 1, 1])
      ∧ ∃ full pend items batches, [1, 1, 1, 1] = [full, pend, items, batches]
        ∧ full + pend = 2 ∧ items = pend ∧ batches ≤ items ∧ (batches = 0 → items = 0) := by
  have hmain : ((exec (SoftBench.step ⟨2, 1, 1⟩) (SoftBench.init ⟨2, 1, 1⟩) pendedRun).map
      fun c => c.main) = some (.check (.finished [1, 1, 1, 1])) := rfl
  obtain ⟨c, hrun, hm⟩ := Option.map_eq_some_iff.mp hmain
  exact ⟨c, hrun, hm, soft_report_consistent ⟨pendedRun, hrun⟩ hm⟩

end Hopter
