import Hopter.SoftLock.SoftBench

/-!
# The end of `run_softlock_bench`

What the consumer knows at each point of its closure, as far as its decision to
stop depends on it, and what the main thread then reads. All of it is stable
under the steps of the other threads: `processed` never falls, and once every
producer is over nothing is recorded any more.
-/

namespace Hopter

open Conc

/-- The phases between a call of `queue_len` and the next step of the closure, with what the
length must satisfy once it is read. -/
def ReadsLen (Q : Nat → Prop) : DemoPhase → Prop
  | .full (FullClosure.queueLen (.unlock len)) => Q len
  | .full (FullClosure.queueLen _) => True
  | .full (FullClosure.ready (some len)) => Q len
  | _ => False

theorem ReadsLen.mono {Q R : Nat → Prop} {p : DemoPhase} (h : ReadsLen Q p)
    (hQR : ∀ len, Q len → R len) : ReadsLen R p := by
  unfold ReadsLen at h ⊢
  split at h
  · exact hQR _ h
  · trivial
  · exact hQR _ h
  · exact h.elim

/-- A call of `queue_len` in progress goes on, and what the length must satisfy is due when it is
read. -/
theorem readsLen_step {Q : Nat → Prop} {s s' : SoftLock DemoInner} {p p' : DemoPhase}
    (h : ReadsLen Q p) (hready : ∀ ret, p ≠ .full (FullClosure.ready ret))
    (hread : p = .full (FullClosure.queueLen .read) → Q s.content.queue.items.length)
    (hs : SoftLock.withAccess s p (goOn p) = some (s', p')) : ReadsLen Q p' := by
  cases p with
  | full a =>
      change FullClosure at a
      cases a with
      | queueLen pc =>
          cases pc with
          | lock =>
              simp only [goOn, SoftLock.withAccess, AllowPendOp.full, FullClosure.step,
                InnerFullAccessor.queueLen, Option.map_eq_some_iff] at hs
              obtain ⟨⟨d, a'⟩, hf, hs⟩ := hs
              cases hs
              by_cases hheld : s.content.queue.held = true
              · rw [if_pos hheld] at hf
                cases hf
                trivial
              · rw [if_neg hheld] at hf
                cases hf
                trivial
          | read =>
              cases hs
              exact hread rfl
          | unlock len =>
              cases hs
              exact h
      | ready ret => exact absurd rfl (hready ret)
      | _ => exact h.elim
  | _ => exact h.elim

/-! ## What the consumer knows -/

/-- What the consumer knows of the content at a point of its closure, in a phase; `submitted`
says that every producer is over. -/
def SoftConsumer.Knows (total : Nat) (submitted : Prop) (d : DemoInner) (p : DemoPhase) :
    SoftConsumer → Prop
  | .testProcessed => ∃ v, p = .full (FullClosure.ready (some v)) ∧ v ≤ d.processed
  | .loadPending finished => finished = true → submitted
  | .queueLen finished => ∃ v, p = .full (FullClosure.ready (some v))
      ∧ (finished = true → submitted ∧ (v = 0 → d.pendingSubmit = 0))
  | .decide finished pending => (finished = true → pending = 0 → submitted ∧ d.pendingSubmit = 0)
      ∧ ReadsLen (fun len => finished = true → pending = 0 → len = 0 → total ≤ d.processed) p
  | .leave again => again = false → total ≤ d.processed
  | _ => True

/-- Nothing the others do takes this away. -/
theorem SoftConsumer.Knows.mono {total : Nat} {submitted submitted' : Prop} {d d' : DemoInner}
    {p : DemoPhase} {t : SoftConsumer} (h : t.Knows total submitted d p)
    (hsub : submitted → submitted') (hproc : d.processed ≤ d'.processed)
    (hpend : submitted → d.pendingSubmit = 0 → d'.pendingSubmit = 0) :
    t.Knows total submitted' d' p := by
  cases t with
  | testProcessed =>
      obtain ⟨v, hp, hv⟩ := h
      exact ⟨v, hp, Nat.le_trans hv hproc⟩
  | loadPending finished => exact fun hf => hsub (h hf)
  | queueLen finished =>
      obtain ⟨v, hp, hv⟩ := h
      refine ⟨v, hp, fun hf => ?_⟩
      obtain ⟨h1, h2⟩ := hv hf
      exact ⟨hsub h1, fun h0 => hpend h1 (h2 h0)⟩
  | decide finished pending =>
      obtain ⟨hk, hlen⟩ := h
      refine ⟨fun hf h0 => ?_, ?_⟩
      · obtain ⟨h1, h2⟩ := hk hf h0
        exact ⟨hsub h1, hpend h1 h2⟩
      · exact hlen.mono fun len hQ hf h0 hl => Nat.le_trans (hQ hf h0 hl) hproc
  | leave again => exact fun hf => Nat.le_trans (h hf) hproc
  | _ => trivial

theorem consumer_text (s : Scenario) (t : SoftConsumer) (p : DemoPhase) :
    (∃ act t', runSoftlockBench.consumer s t p = .act act t')
      ∨ runSoftlockBench.consumer s t p = .loadDone .loadPending
      ∨ runSoftlockBench.consumer s t p = .exit := by
  unfold runSoftlockBench.consumer
  split
  · split
    · exact Or.inr (Or.inr rfl)
    · exact Or.inl ⟨_, _, rfl⟩
  · split
    case h_5 =>
      split
      · exact Or.inl ⟨_, _, rfl⟩
      · exact Or.inr (Or.inl rfl)
    all_goals exact Or.inl ⟨_, _, rfl⟩
  · exact Or.inl ⟨_, _, rfl⟩
  · exact Or.inl ⟨_, _, rfl⟩

/-- A consumer that is over is outside, and has processed everything. -/
theorem consumer_exit {s : Scenario} {t : SoftConsumer} {p : DemoPhase}
    (h : runSoftlockBench.consumer s t p = .exit) : p = .idle ∧ t = .leave false := by
  unfold runSoftlockBench.consumer at h
  split at h
  · split at h
    · exact ⟨rfl, rfl⟩
    · cases h
  · split at h
    case h_5 => split at h <;> cases h
    all_goals cases h
  · cases h
  · cases h

/-- A method has returned, and the closure looks at what it says. -/
theorem consumer_resume {s : Scenario} {t t' : SoftConsumer} {p' : DemoPhase} {act : DemoAct}
    {ret : Option Nat} {l l' : SoftLock DemoInner} {submitted : Prop}
    (hk : t.Knows s.totalOps submitted l.content (.full (FullClosure.ready ret)))
    (htext : runSoftlockBench.consumer s t (.full (FullClosure.ready ret)) = .act act t')
    (hs : SoftLock.withAccess l (.full (FullClosure.ready ret)) act = some (l', p'))
    (hproc : l.content.processed ≤ l'.content.processed) :
    t'.Knows s.totalOps submitted l'.content p' := by
  unfold runSoftlockBench.consumer at htext
  dsimp only at htext
  split at htext
  case h_1 => cases htext; trivial
  case h_2 => cases htext; trivial
  case h_3 => cases htext; trivial
  case h_4 =>
    cases htext
    cases hs
    exact ⟨_, rfl, Nat.le_refl _⟩
  case h_5 processed =>
    split at htext <;> cases htext
    rename_i hge
    obtain ⟨v, hp, hv⟩ := hk
    cases hp
    intro _
    exact Nat.le_trans (Nat.le_trans hge hv) hproc
  case h_6 finished _ =>
    cases htext
    cases hs
    exact ⟨_, rfl, fun hf => ⟨hk hf, id⟩⟩
  case h_7 finished pending =>
    cases htext
    obtain ⟨v, hp, hv⟩ := hk
    cases hp
    cases hs
    exact ⟨fun hf h0 => ⟨(hv hf).1, (hv hf).2 h0⟩, trivial⟩
  case h_8 finished pending len =>
    cases htext
    cases hs
    obtain ⟨-, hlen⟩ := hk
    intro hagain
    simp only [Bool.not_eq_false', Bool.and_eq_true, beq_iff_eq] at hagain
    obtain ⟨⟨hf, h0⟩, hl⟩ := hagain
    exact hlen hf h0 hl
  case h_9 h1 h2 h3 h4 h5 h6 h7 h8 =>
    -- the closure has returned already, or what it waits for is there
    cases htext
    cases hs
    cases t with
    | leave again => exact hk
    | loadPendingBefore => exact absurd rfl h1
    | runPendedOp => exact absurd rfl h2
    | processSome => exact absurd rfl h3
    | loadProcessed => exact absurd rfl h4
    | loadPending finished => exact absurd rfl (h5 finished)
    | testProcessed =>
        obtain ⟨v, hp, -⟩ := hk
        cases hp
        exact absurd rfl (h6 v rfl)
    | queueLen finished =>
        obtain ⟨v, hp, -⟩ := hk
        cases hp
        exact absurd rfl (h7 finished v rfl)
    | decide finished pending =>
        obtain ⟨-, hlen⟩ := hk
        cases ret with
        | none => exact hlen.elim
        | some len => exact absurd rfl (h8 finished pending len rfl)

/-- A method is in progress, or the guard is dropped. -/
theorem consumer_inside {total : Nat} {t : SoftConsumer} {p p' : DemoPhase}
    {l l' : SoftLock DemoInner} {submitted : Prop} (hk : t.Knows total submitted l.content p)
    (hready : ∀ ret, p ≠ .full (FullClosure.ready ret))
    (hs : SoftLock.withAccess l p (goOn p) = some (l', p'))
    (hproc : l.content.processed ≤ l'.content.processed)
    (hpend : submitted → l.content.pendingSubmit = 0 → l'.content.pendingSubmit = 0)
    (hread : p = .full (FullClosure.queueLen .read) → submitted → l.content.pendingSubmit = 0 →
      l.content.queue.items.length = 0 → total ≤ l.content.processed) :
    t.Knows total submitted l'.content p' := by
  cases t with
  | testProcessed =>
      obtain ⟨v, hp, -⟩ := hk
      exact absurd hp (hready _)
  | queueLen finished =>
      obtain ⟨v, hp, -⟩ := hk
      exact absurd hp (hready _)
  | loadPending finished => exact hk
  | leave again => exact fun hf => Nat.le_trans (hk hf) hproc
  | decide finished pending =>
      obtain ⟨hsub, hlen⟩ := hk
      refine ⟨fun hf h0 => ⟨(hsub hf h0).1, hpend (hsub hf h0).1 (hsub hf h0).2⟩, ?_⟩
      have hstep := readsLen_step hlen hready (fun hp hf h0 hl =>
        hread hp (hsub hf h0).1 (hsub hf h0).2 hl) hs
      exact hstep.mono fun len hQ hf h0 hl => Nat.le_trans (hQ hf h0 hl) hproc
  | _ => trivial

/-- **One step of the consumer.** `hread` is what the accounts say when it reads the length of the
queue. -/
theorem consumer_act {s : Scenario} {t t' : SoftConsumer} {p p' : DemoPhase} {act : DemoAct}
    {l l' : SoftLock DemoInner} {submitted : Prop}
    (hk : t.Knows s.totalOps submitted l.content p)
    (htext : runSoftlockBench.consumer s t p = .act act t')
    (hs : SoftLock.withAccess l p act = some (l', p'))
    (hproc : l.content.processed ≤ l'.content.processed)
    (hpend : submitted → l.content.pendingSubmit = 0 → l'.content.pendingSubmit = 0)
    (hread : p = .full (FullClosure.queueLen .read) → submitted → l.content.pendingSubmit = 0 →
      l.content.queue.items.length = 0 → s.totalOps ≤ l.content.processed) :
    t'.Knows s.totalOps submitted l'.content p' := by
  have htext' := htext
  unfold runSoftlockBench.consumer at htext
  split at htext
  · split at htext <;> cases htext
    trivial
  · exact consumer_resume hk htext' hs hproc
  · cases htext
    intro hagain
    cases hagain
  · rename_i hidle hready hpnd
    cases htext
    exact consumer_inside hk hready hs hproc hpend hread

/-! ## What the main thread knows -/

/-- The three asserted values are as the assertions want them. -/
def Checked.Good (s : Scenario) (v : Checked) : Prop :=
  v.processed = s.totalOps ∧ v.pending = 0 ∧ v.queueLeft = 0

/-- What the main thread has read is right, and it is never turned away. -/
def SoftCheck.Right (s : Scenario) (p : DemoPhase) : SoftCheck → Prop
  | .loadProcessed => p = .idle ∨ ∃ ret, p = .full (FullClosure.ready ret)
  | .loadPending => p = .full (FullClosure.ready (some s.totalOps))
  | .queueLen processed => processed = s.totalOps ∧ p = .full (FullClosure.ready (some 0))
  | .loadStats processed pending =>
      processed = s.totalOps ∧ pending = 0 ∧ ReadsLen (fun len => len = 0) p
  | .stats checked _ _ => checked.Good s ∧ ∃ v, p = .full (FullClosure.ready (some v))
  | .asserts checked _ => checked.Good s ∧ ¬ p.PendOnly
  | .finished _ => p = .idle
  | .panicked _ => False

theorem SoftCheck.Right.not_pendOnly {s : Scenario} {p : DemoPhase} {t : SoftCheck}
    (h : t.Right s p) : ¬ p.PendOnly := by
  cases t with
  | loadProcessed =>
      rcases h with rfl | ⟨ret, rfl⟩
      · exact id
      · exact id
  | loadPending =>
      cases h
      exact id
  | queueLen processed =>
      cases h.2
      exact id
  | loadStats processed pending =>
      intro hp
      cases p <;> first | exact hp | exact h.2.2
  | stats checked left read =>
      obtain ⟨v, rfl⟩ := h.2
      exact id
  | asserts checked read => exact h.2
  | finished read =>
      cases h
      exact id
  | panicked message => exact h.elim

/-- Everything submitted has been processed, and nothing is on its way. -/
structure Settled (s : Scenario) (d : DemoInner) : Prop where
  processed : d.processed = s.totalOps
  pendingSubmit : d.pendingSubmit = 0
  queue : d.queue.items = []

theorem check_quiet {s : Scenario} {t t' : SoftCheck} {p p' : DemoPhase} {l l' : SoftLock DemoInner}
    {done : Bool} (hk : t.Right s p)
    (h : (runSoftlockBench.check s t p).take SoftLock.withAccess l done p = some (l', p', t'))
    (hno : ∀ act k, runSoftlockBench.check s t p ≠ .act act k) (hp : p' = p) :
    t'.Right s p' := by
  subst hp
  unfold runSoftlockBench.check at h hno
  cases p' with
  | idle =>
      cases t with
      | asserts checked read =>
          obtain ⟨⟨h1, h2, h3⟩, -⟩ := hk
          simp only [h1, h2, h3, ne_eq, not_true, if_false, Todo.take, Option.some.injEq,
            Prod.mk.injEq] at h
          obtain ⟨-, -, rfl⟩ := h
          rfl
      | finished read => cases h
      | panicked message => cases h
      | _ => exact absurd rfl (hno _ _)
  | pend a => exact absurd rfl (hno _ _)
  | full a =>
      change FullClosure at a
      cases a with
      | ready ret =>
          exfalso
          dsimp only at hno
          split at hno <;> exact hno _ _ rfl
      | _ => exact absurd rfl (hno _ _)
  | _ => exact absurd rfl (hno _ _)

/-- An access that got the lock keeps it that way. -/
theorem goOn_not_pendOnly {p p' : DemoPhase} {s s' : SoftLock DemoInner} {act : DemoAct}
    (hidle : p ≠ .idle) (hp : ¬ p.PendOnly) (hs : SoftLock.withAccess s p act = some (s', p')) :
    ¬ p'.PendOnly := by
  cases SoftLock.withAccess_cases hs with
  | guardFull _ | guardPend _ => exact absurd rfl hidle
  | pend _ | pendExit _ | pendStore => exact absurd trivial hp
  | _ => exact id

/-- The lock is there to be taken. -/
theorem check_enters {s : Scenario} {t t' : SoftCheck} {p' : DemoPhase} {act : DemoAct}
    {l l' : SoftLock DemoInner} (htext : runSoftlockBench.check s t .idle = .act act t')
    (hs : SoftLock.withAccess l .idle act = some (l', p')) (hfree : l.locked = false) :
    t'.Right s p' := by
  unfold runSoftlockBench.check at htext
  dsimp only at htext
  split at htext
  · split at htext
    · cases htext
    · split at htext
      · cases htext
      · split at htext <;> cases htext
  · cases htext
  · cases htext
  · cases htext
    cases SoftLock.withAccess_cases hs with
    | guardFull _ => exact Or.inr ⟨_, rfl⟩
    | guardPend hl =>
        rw [hfree] at hl
        cases hl

/-- A method has returned, and the closure looks at what it says. -/
theorem check_resume {s : Scenario} {t t' : SoftCheck} {p' : DemoPhase} {act : DemoAct}
    {ret : Option Nat} {l l' : SoftLock DemoInner}
    (hk : t.Right s (.full (FullClosure.ready ret)))
    (htext : runSoftlockBench.check s t (.full (FullClosure.ready ret)) = .act act t')
    (hs : SoftLock.withAccess l (.full (FullClosure.ready ret)) act = some (l', p'))
    (hset : Settled s l.content) : t'.Right s p' := by
  unfold runSoftlockBench.check at htext
  dsimp only at htext
  split at htext
  case h_1 =>
    cases htext
    cases hs
    show (.full (FullClosure.ready (some l.content.processed)) : DemoPhase) = _
    rw [hset.processed]
  case h_2 processed =>
    cases htext
    cases hs
    have hp : some processed = some s.totalOps := by
      have := hk
      unfold SoftCheck.Right at this
      cases this
      rfl
    cases hp
    refine ⟨rfl, ?_⟩
    show (.full (FullClosure.ready (some l.content.pendingSubmit)) : DemoPhase) = _
    rw [hset.pendingSubmit]
  case h_3 processed pending =>
    cases htext
    cases hs
    obtain ⟨hproc, hp⟩ := hk
    cases hp
    exact ⟨hproc, rfl, trivial⟩
  case h_4 processed pending queueLeft =>
    cases htext
    cases hs
    obtain ⟨hproc, hpend, hlen⟩ := hk
    exact ⟨⟨hproc, hpend, hlen⟩, _, rfl⟩
  case h_5 checked counter left read value =>
    cases htext
    cases hs
    exact ⟨hk.1, _, rfl⟩
  case h_6 checked read value =>
    cases htext
    cases hs
    exact ⟨hk.1, id⟩
  case h_7 h1 h2 h3 h4 h5 h6 =>
    -- the closure has returned already, or what it waits for is there
    cases htext
    cases hs
    cases t with
    | loadProcessed => exact absurd rfl h1
    | loadPending =>
        cases hk
        exact absurd rfl (h2 _ rfl)
    | queueLen processed =>
        cases hk.2
        exact absurd rfl (h3 _ _ rfl)
    | loadStats processed pending =>
        cases ret with
        | none => exact hk.2.2.elim
        | some len => exact absurd rfl (h4 _ _ _ rfl)
    | stats checked left read =>
        obtain ⟨v, hp⟩ := hk.2
        cases hp
        cases left with
        | nil => exact absurd rfl (h6 _ _ _ rfl)
        | cons counter left => exact absurd rfl (h5 _ _ _ _ _ rfl)
    | asserts checked read => exact ⟨hk.1, id⟩
    | finished read => cases hk
    | panicked message => exact hk

/-- A method is in progress, or the guard is dropped. -/
theorem check_inside {s : Scenario} {t : SoftCheck} {p p' : DemoPhase} {l l' : SoftLock DemoInner}
    (hk : t.Right s p) (hidle : p ≠ .idle) (hready : ∀ ret, p ≠ .full (FullClosure.ready ret))
    (hs : SoftLock.withAccess l p (goOn p) = some (l', p')) (hset : Settled s l.content) :
    t.Right s p' := by
  cases t with
  | loadProcessed =>
      rcases hk with hp | ⟨ret, hp⟩
      · exact absurd hp hidle
      · exact absurd hp (hready ret)
  | loadPending => exact absurd hk (hready _)
  | queueLen processed => exact absurd hk.2 (hready _)
  | loadStats processed pending =>
      obtain ⟨hproc, hpend, hlen⟩ := hk
      refine ⟨hproc, hpend, readsLen_step hlen hready (fun _ => ?_) hs⟩
      rw [hset.queue]
      rfl
  | stats checked left read =>
      obtain ⟨v, hp⟩ := hk.2
      exact absurd hp (hready _)
  | asserts checked read => exact ⟨hk.1, goOn_not_pendOnly hidle hk.2 hs⟩
  | finished read => exact absurd hk hidle
  | panicked message => exact hk

/-- **One step of the main thread's access.** -/
theorem check_act {s : Scenario} {t t' : SoftCheck} {p p' : DemoPhase} {act : DemoAct}
    {l l' : SoftLock DemoInner} (hk : t.Right s p)
    (htext : runSoftlockBench.check s t p = .act act t')
    (hs : SoftLock.withAccess l p act = some (l', p'))
    (hfree : p = .idle → l.locked = false) (hset : Settled s l.content) : t'.Right s p' := by
  have htext' := htext
  unfold runSoftlockBench.check at htext
  split at htext
  · exact check_enters htext' hs (hfree rfl)
  · exact check_resume hk htext' hs hset
  · -- it is never turned away
    exact absurd trivial hk.not_pendOnly
  · rename_i hidle hready hpnd
    cases htext
    exact check_inside hk hidle hready hs hset

/-! ## Over whole runs -/

/-- A step that makes no submission only adds to `processed` and takes from `pending_submit`. -/
theorem take_kept {κ : Type} {todo : Todo (SoftLock DemoInner) DemoAct κ} {k : κ}
    {p p' : DemoPhase} {l l' : SoftLock DemoInner} {done : Bool}
    (h : todo.take SoftLock.withAccess l done p = some (l', p', k)) :
    l.content.processed ≤ l'.content.processed
      ∧ ((∀ act k', todo = .act act k' → act.submits = 0) →
          l'.content.pendingSubmit ≤ l.content.pendingSubmit) := by
  rcases Todo.take_cases h with ⟨act, htodo, hP⟩ | ⟨rfl, -, -⟩
  · rcases withAccess_effect hP with he | ⟨call, a, a', rfl, hpend⟩
    · exact ⟨he.processed_le, fun _ => he.pendingSubmit_le⟩
    · cases call with
      | pendSubmit =>
          rw [PendClosure.step, Option.some.injEq, Prod.mk.injEq] at hpend
          refine ⟨by rw [← hpend.1]; exact Nat.le_refl _, fun hsub => ?_⟩
          cases hsub _ _ htodo
      | addPendEntries =>
          rw [PendClosure.step, Option.some.injEq, Prod.mk.injEq] at hpend
          rw [← hpend.1]
          exact ⟨Nat.le_refl _, fun _ => Nat.le_refl _⟩
  · exact ⟨Nat.le_refl _, fun _ => Nat.le_refl _⟩

namespace SoftBench

variable {s : Scenario}

/-- Every producer is over. -/
def AllExited (c : SoftBench s) : Prop := ∀ p, Bench.Exited (runSoftlockBench s) c p

theorem threads_reachable {c : SoftBench s} (h : Reachable (step s) (init s) c) :
    Reachable SoftLock.step (fresh DemoInner.new) c.threads :=
  Bench.threads_reachable h

/-- Once `processed` is `total_ops`, nothing is on its way. -/
theorem settled {c : SoftBench s} (h : Reachable (step s) (init s) c)
    (hge : s.totalOps ≤ c.inner.content.processed) : Settled s c.inner.content := by
  have hbooks := (softBooks_reachable h).total
  obtain ⟨o, -, -, hledger⟩ := demo_owned (threads_reachable h)
  have htotal : c.inner.content.made = c.inner.content.processed
      + c.inner.content.queue.items.length + c.inner.content.pendingSubmit
      + (useOf o).inHand.items := hledger.total
  exact ⟨by omega, by omega, List.eq_nil_of_length_eq_zero (by omega)⟩

/-- Reading an empty queue with the producers over and nothing pended says the same. -/
theorem read_empty {c : SoftBench s} (h : Reachable (step s) (init s) c)
    (hp : c.phase .consumer = .full (FullClosure.queueLen .read)) (hexit : AllExited c)
    (hpend : c.inner.content.pendingSubmit = 0)
    (hlen : c.inner.content.queue.items.length = 0) :
    s.totalOps ≤ c.inner.content.processed := by
  have hbooks := softBooks_reachable h
  have htodo : c.toDo SoftProducer.toSubmit = 0 :=
    Bench.toDo_exited fun p => (producer_exit (hbooks.ok p) (hexit p)).2
  have hmade := hbooks.total
  -- the consumer is the owner, with nothing in hand
  have hhold : (c.threads.thread .consumer).Holding := by
    show (c.phase .consumer).Holding
    rw [hp]
    trivial
  obtain ⟨-, hledger⟩ := owned_some (demo_owned (threads_reachable h)) hhold
  have htotal := hledger.total
  rw [show c.threads.thread .consumer = .full (FullClosure.queueLen .read) from hp] at htotal
  have htotal : c.inner.content.made = c.inner.content.processed
      + c.inner.content.queue.items.length + c.inner.content.pendingSubmit + 0 := htotal
  omega

/-- What the consumer and the main thread know. -/
structure Known (c : SoftBench s) : Prop where
  consumer : c.consumer.Knows s.totalOps c.AllExited c.inner.content (c.phase .consumer)
  right : ∀ pc, c.main = .check pc → pc.Right s (c.phase .main)
  idle : (∀ pc, c.main ≠ .check pc) → c.phase .main = .idle

/-- The main thread finds everything settled, and the lock free. -/
theorem main_finds {c : SoftBench s} (h : Reachable (step s) (init s) c) (hk : Known c)
    {pc : SoftCheck} (hm : c.main = .check pc) :
    Settled s c.inner.content ∧ (c.phase .main = .idle → c.inner.locked = false) := by
  obtain ⟨hexit, hcons⟩ := (Bench.joined_reachable h).all hm
  obtain ⟨hidle, hleave⟩ := consumer_exit hcons
  have hge : s.totalOps ≤ c.inner.content.processed := by
    have hcons := hk.consumer
    rw [hleave] at hcons
    exact hcons rfl
  refine ⟨settled h hge, fun hmain => ?_⟩
  refine owned_unlocked (demo_owned (threads_reachable h)) fun t => ?_
  cases t with
  | producer p => exact (producer_exit ((softBooks_reachable h).ok p) (hexit p)).1
  | consumer => exact hidle
  | main => exact hmain

theorem known_step {c c' : SoftBench s} {t : Tid s.producers}
    (hr : Reachable (step s) (init s) c) (hk : Known c) (hs : step s c t = some c') :
    Known c' := by
  have hexit : c.AllExited → c'.AllExited := fun he p => Bench.exited_step hs (he p)
  have hjoined := Bench.joined_reachable hr
  cases Bench.step_cases hs with
  | @producer p s' l' k ht =>
      refine ⟨?_, hk.right, hk.idle⟩
      refine hk.consumer.mono hexit (take_kept ht).1 fun he _ => ?_
      -- a producer that is over takes no step
      have hp := he p
      rw [Bench.Exited] at hp
      rw [hp] at ht
      cases ht
  | @consumer s' l' k ht =>
      refine ⟨?_, hk.right, hk.idle⟩
      have hkept := take_kept ht
      have hpend := hkept.2 fun _ _ => consumer_submits
      suffices hown : k.Knows s.totalOps c.AllExited s'.content l' by
        refine hown.mono hexit (Nat.le_refl _) fun _ h0 => h0
      rcases Todo.take_cases ht with ⟨act, htext, hP⟩ | ⟨rfl, rfl, hno⟩
      · refine consumer_act hk.consumer htext hP hkept.1 (fun _ h0 => ?_) ?_
        · omega
        · intro hp he h0 hlen
          exact read_empty hr hp he h0 hlen
      · rcases consumer_text s c.consumer (c.phase .consumer) with ⟨act, t', htext⟩ | htext | htext
        · exact absurd htext (hno act t')
        · -- it reads `producers_done`, which was stored after the joins
          rw [show (runSoftlockBench s).consumer = runSoftlockBench.consumer s from rfl, htext]
            at ht
          cases ht
          exact fun hd => hjoined.done hd
        · rw [show (runSoftlockBench s).consumer = runSoftlockBench.consumer s from rfl, htext]
            at ht
          cases ht
  | @check pc s' l' k hm ht =>
      obtain ⟨hset, hfree⟩ := main_finds hr hk hm
      have hkept := take_kept ht
      have hpend := hkept.2 fun _ _ => check_submits
      refine ⟨?_, ?_, fun h => absurd rfl (h k)⟩
      · exact hk.consumer.mono hexit hkept.1 fun _ h0 => by
          show s'.content.pendingSubmit = 0
          omega
      · intro pc' hpc'
        cases hpc'
        rcases Todo.take_cases ht with ⟨act, htext, hP⟩ | ⟨-, hp, hno⟩
        · exact check_act (hk.right pc hm) htext hP hfree hset
        · exact check_quiet (hk.right pc hm) ht hno hp
  | joinProducer hm _ =>
      exact ⟨hk.consumer.mono hexit (Nat.le_refl _) fun _ h0 => h0, nofun,
        fun _ => hk.idle fun pc hpc => by rw [hm] at hpc; cases hpc⟩
  | storeDone hm _ =>
      exact ⟨hk.consumer.mono hexit (Nat.le_refl _) fun _ h0 => h0, nofun,
        fun _ => hk.idle fun pc hpc => by rw [hm] at hpc; cases hpc⟩
  | joinConsumer hm _ =>
      refine ⟨hk.consumer.mono hexit (Nat.le_refl _) fun _ h0 => h0, ?_, fun h => absurd rfl (h _)⟩
      intro pc hpc
      cases hpc
      exact Or.inl (hk.idle fun pc hpc => by rw [hm] at hpc; cases hpc)

theorem known_reachable {c : SoftBench s} (h : Reachable (step s) (init s) c) : Known c := by
  refine h.invariant (I := Known) ?_ (fun hr ih hs => known_step hr ih hs)
  exact ⟨nofun, nofun, fun _ => rfl⟩

end SoftBench

/-- Two producers, of which one is turned away while the other one has the lock. The first one's
`drop` drains what the second one pends, and everything else is run up to the return. -/
def pendedRun : List (Tid 2) :=
  .producer 0 :: List.replicate 5 (.producer 1) ++ List.replicate 18 (.producer 0)
    ++ List.replicate 3 .main ++ List.replicate 36 .consumer ++ List.replicate 17 .main

end Hopter
