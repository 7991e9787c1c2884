import Hopter.SoftLock.Pending

/-!
# One access, run alone

What a single access does when no other one is in progress: it gets the lock,
its `drop` ends, and it leaves nothing pended behind. Whatever was recorded
before and not yet queued is queued when it is over, whatever its closure does.
-/

namespace Hopter

open Conc

variable {ι : Type} [DecidableEq ι]

/-- Along a run of thread `i` alone that started with the content `d`, nobody else moves, thread
`i` never is a guard without the lock, nothing is recorded, and what was submitted stays so. -/
structure Alone (i : ι) (d : DemoInner) (c : Config (SoftLock DemoInner) ι DemoPhase) : Prop where
  others : ∀ j, j ≠ i → c.thread j = .idle
  full : ¬ (c.thread i).PendOnly
  pends : c.shared.content.hist.pends = d.hist.pends
  directs : d.hist.directs ≤ c.shared.content.hist.directs

/-- With everybody else outside and thread `i` about to start, the lock is free. -/
theorem Alone.unlocked {i : ι} {d : DemoInner} {c : Config (SoftLock DemoInner) ι DemoPhase}
    (h : Alone i d c) (hr : Reachable SoftLock.step (fresh DemoInner.new) c)
    (hi : c.thread i = .idle) : c.shared.locked = false := by
  refine owned_unlocked (demo_owned hr) fun j => ?_
  by_cases hj : j = i
  · rw [hj]
    exact hi
  · exact h.others j hj

omit [DecidableEq ι] in
/-- Content code with Full access keeps the books of a lone run. -/
theorem Alone.effect {i : ι} {d d' : DemoInner} {c : Config (SoftLock DemoInner) ι DemoPhase}
    (h : Alone i d c) (he : FullEffect c.shared.content d') :
    d'.hist.pends = d.hist.pends ∧ d.hist.directs ≤ d'.hist.directs :=
  ⟨he.pends_eq.trans h.pends, Nat.le_trans h.directs he.directs_le⟩

theorem alone_step {i : ι} {d : DemoInner} {c c' : Config (SoftLock DemoInner) ι DemoPhase}
    {act : DemoAct} (hr : Reachable SoftLock.step (fresh DemoInner.new) c)
    (h : Alone i d c) (hs : SoftLock.step c (i, act) = some c') : Alone i d c' := by
  have hothers : ∀ j, j ≠ i → c'.thread j = .idle := by
    intro j hj
    rw [Config.thread_of_step hs hj]
    exact h.others j hj
  have hlocal := Config.local_of_step hs
  have hfree := h.unlocked hr
  have hfull := h.full
  have heffect := fun d' (he : FullEffect c.shared.content d') => h.effect he
  -- read the step off the two phases of thread `i`
  suffices hgoal : ¬ (c'.thread i).PendOnly ∧ c'.shared.content.hist.pends = d.hist.pends
      ∧ d.hist.directs ≤ c'.shared.content.hist.directs from
    ⟨hothers, hgoal.1, hgoal.2.1, hgoal.2.2⟩
  have hstep := SoftLock.withAccess_cases hlocal
  generalize c'.thread i = p', c'.shared = s' at hstep
  generalize hp : c.thread i = p at hstep hfree hfull
  generalize c.shared = s at hstep hfree heffect
  cases hstep with
  | guardPend hl =>
      rw [hfree rfl] at hl
      cases hl
  | pend _ | pendExit _ | pendStore => exact absurd trivial hfull
  | full hf => exact ⟨id, heffect _ (FullClosure.step_effect hf)⟩
  | @run r d' r' hf =>
      have he := runPendedOp_effect s.content r
      rw [show InnerFullAccessor.runPendedOp s.content r = (d', some r') from hf] at he
      exact ⟨id, heffect _ he⟩
  | @runEnd r d' hf =>
      have he := runPendedOp_effect s.content r
      rw [show InnerFullAccessor.runPendedOp s.content r = (d', none) from hf] at he
      exact ⟨id, heffect _ he⟩
  | guardFull _ | fullExit _ | swapTrue _ | swapFalse _ | store | loadTrue _ | loadFalse _
  | casFail _ | casOk _ => exact ⟨id, heffect _ .none⟩

theorem alone_run {i : ι} {acts : List DemoAct}
    {c c' : Config (SoftLock DemoInner) ι DemoPhase}
    (hr : Reachable SoftLock.step (fresh DemoInner.new) c) (hq : Quiescent c)
    (hrun : exec SoftLock.step c (acts.map fun act => (i, act)) = some c') :
    Alone i c.shared.content c' := by
  refine (visits_last hrun).invariant (I := Alone i c.shared.content) ?_ ?_
  · exact ⟨fun j _ => hq j, by rw [hq i]; exact id, rfl, Nat.le_refl _⟩
  · intro d d' e htake hd hs
    obtain ⟨act, -, rfl⟩ := List.mem_map.mp htake.mem
    obtain ⟨pre, -, hpre⟩ := htake
    exact alone_step (hr.trans ⟨pre, hpre⟩) hd hs

/-- Between two moments without an access in progress nothing was recorded, and the queue got one
id for each submission that was pended at the first and one for each direct one since. -/
structure Queued (d d' : DemoInner) : Prop where
  recorded : d'.hist.pends = d.hist.pends
  ids : ∃ n, d'.directItems = d.directItems + n
    ∧ d'.nextId = d.nextId + (d.pendingSubmit + n)
    ∧ d'.hist.popped ++ d'.queue.items
      = d.hist.popped ++ d.queue.items ++ List.range' d.nextId (d.pendingSubmit + n)

/-- With no access in progress nothing is in hand. -/
theorem Quiescent.ledger {c : Config (SoftLock DemoInner) ι DemoPhase} (hq : Quiescent c)
    (hr : Reachable SoftLock.step (fresh DemoInner.new) c) :
    PendLedger c.shared.content {} ∧ QueueLedger c.shared.content {} :=
  (owned_none (demo_owned hr) fun i => by rw [hq i]; exact id).2

/-- Balanced books, before and after, say where the recorded submissions went. -/
theorem queued_of_ledger {d d' : DemoInner} (hb : PendLedger d {} ∧ QueueLedger d {})
    (ha : PendLedger d' {} ∧ QueueLedger d' {}) (hzero : d'.pendingSubmit = 0)
    (hpends : d'.hist.pends = d.hist.pends) (hdirects : d.hist.directs ≤ d'.hist.directs) :
    Queued d d' := by
  obtain ⟨⟨hrec, -⟩, hbefore⟩ := hb
  obtain ⟨⟨hrec', -⟩, hafter⟩ := ha
  have hnext : d.nextId = d.hist.popped.length + d.queue.items.length + 1 := hbefore.next
  have hnext' : d'.nextId = d'.hist.popped.length + d'.queue.items.length + 1 := hafter.next
  have hdirect : d.hist.directs = d.directItems := hbefore.direct
  have hdirect' : d'.hist.directs = d'.directItems := hafter.direct
  have hpushed : d.hist.directs + d.hist.drained
      = d.hist.popped.length + d.queue.items.length := hbefore.pushed
  have hpushed' : d'.hist.directs + d'.hist.drained
      = d'.hist.popped.length + d'.queue.items.length := hafter.pushed
  simp only [Nat.add_zero] at hrec hrec'
  obtain ⟨n, hn⟩ := Nat.le.dest hdirects
  refine ⟨hpends, n, by omega, by omega, ?_⟩
  -- both are `1, 2, 3, …`, and the second goes on where the first stops
  rw [hafter.ids, hbefore.ids, hnext, Nat.add_comm _ 1, List.range'_append_1]
  exact congrArg (List.range' 1) (by omega)

/-- An access that ran alone and is over left nothing pended, and queued what was recorded. -/
theorem alone_drains {i : ι} {acts : List DemoAct}
    {c c' : Config (SoftLock DemoInner) ι DemoPhase}
    (hr : Reachable SoftLock.step (fresh DemoInner.new) c) (hq : Quiescent c)
    (hne : acts ≠ [])
    (hrun : exec SoftLock.step c (acts.map fun act => (i, act)) = some c')
    (hend : c'.thread i = .idle) :
    Drained c'.shared ∧ Queued c.shared.content c'.shared.content := by
  have hr' : Reachable SoftLock.step (fresh DemoInner.new) c' := hr.trans ⟨_, hrun⟩
  have halone := alone_run hr hq hrun
  have hq' : Quiescent c' := by
    intro j
    by_cases hj : j = i
    · rw [hj]
      exact hend
    · exact halone.others j hj
  -- the last step looked at the flag and found it down
  have hflag : c'.shared.pending = false := by
    rcases List.eq_nil_or_concat acts with rfl | ⟨acts, act, rfl⟩
    · exact absurd rfl hne
    · rw [List.concat_eq_append, List.map_append, List.map_singleton] at hrun
      obtain ⟨d, hd, hs⟩ := exec_concat.mp hrun
      have hlocal := Config.local_of_step hs
      rw [hend] at hlocal
      rcases step_to_idle hlocal with ⟨-, hf, heq⟩ | ⟨⟨a, ha⟩, -, -⟩
      · rw [heq]
        exact hf
      · have hfull := (alone_run hr hq hd).full
        rw [ha] at hfull
        exact absurd trivial hfull
  have hzero := hq'.pendingSubmit_eq_zero (pendingKnown_reachable hr') hflag
  have hdrained : Drained c'.shared :=
    drained_of_free hr' (fun j => by rw [hq' j]; exact id) hflag hzero
  exact ⟨hdrained,
    queued_of_ledger (hq.ledger hr) (hq'.ledger hr') hzero halone.pends halone.directs⟩

/-! ## The access ends -/

/-- Repeating the next atomic step leads from one point of `drop` to another. -/
abbrev Leads (x y : SoftLock DemoInner × DemoPhase) : Prop :=
  Relation.ReflTransGen (fun x y => SoftLock.withAccess x.1 x.2 .step = some y) x y

theorem Leads.head {x y z : SoftLock DemoInner × DemoPhase}
    (h : SoftLock.withAccess x.1 x.2 .step = some y) (hz : Leads y z) : Leads x z :=
  Relation.ReflTransGen.head h hz

/-- The loop of `run_pended_op` ends; it does not touch the flag. -/
theorem leads_loop (k : Nat) (s : SoftLock DemoInner) :
    ∃ s', s'.pending = s.pending ∧ Leads (s, .dropRun (RunPended.loop k)) (s', .dropStore) := by
  induction k generalizing s with
  | zero =>
      exact ⟨{ s with content := s.content.setHeld false }, rfl, Relation.ReflTransGen.single rfl⟩
  | succ k ih =>
      obtain ⟨s', hp, hl⟩ := ih
        { s with content := (InnerFullAccessor.runPendedOp
            (InnerFullAccessor.runPendedOp s.content (.loop (k + 1))).1
            (.push k s.content.nextId)).1 }
      exact ⟨s', hp, Leads.head rfl (Leads.head rfl hl)⟩

/-- With a count in hand and the queue mutex free, `run_pended_op` gets to its end. -/
theorem leads_batches (n : Nat) (s : SoftLock DemoInner) (hheld : s.content.queue.held = false) :
    ∃ s', s'.pending = s.pending ∧ Leads (s, .dropRun (RunPended.batches n)) (s', .dropStore) := by
  obtain ⟨s', hp, hl⟩ := leads_loop n
    { s with content := (InnerFullAccessor.runPendedOp
        (InnerFullAccessor.runPendedOp s.content (.batches n)).1 (.items n)).1.setHeld true }
  refine ⟨s', hp, Leads.head rfl (Leads.head rfl (Leads.head ?_ hl))⟩
  simp [SoftLock.withAccess, AccessGuard.drop, AllowPendOp.run, InnerFullAccessor.runPendedOp,
    hheld]

/-- `run_pended_op` ends when the queue mutex is free. -/
theorem leads_run (s : SoftLock DemoInner) (hheld : s.content.queue.held = false) :
    ∃ s', s'.pending = s.pending ∧ Leads (s, .dropRun RunPended.swap) (s', .dropStore) := by
  by_cases h0 : s.content.pendingSubmit = 0
  · refine ⟨{ s with content := { s.content with pendingSubmit := 0 } }, rfl,
      Relation.ReflTransGen.single ?_⟩
    simp [SoftLock.withAccess, AccessGuard.drop, AllowPendOp.run, InnerFullAccessor.runPendedOp, h0]
  · obtain ⟨s', hp, hl⟩ := leads_batches s.content.pendingSubmit
      { s with content := { s.content with pendingSubmit := 0 } } hheld
    refine ⟨s', hp, Leads.head ?_ hl⟩
    simp [SoftLock.withAccess, AccessGuard.drop, AllowPendOp.run, InnerFullAccessor.runPendedOp, h0]

/-- A `drop` that nobody interferes with ends after one round. -/
theorem leads_drop (s : SoftLock DemoInner) (hheld : s.content.queue.held = false) :
    ∃ s', Leads (s, .dropSwap) (s', .idle) := by
  have hstart : ∃ s', s'.pending = false ∧ Leads (s, .dropSwap) (s', .dropStore) := by
    cases hp : s.pending with
    | true =>
        obtain ⟨s', hp', hl⟩ := leads_run { s with pending := false } hheld
        refine ⟨s', hp', Leads.head ?_ hl⟩
        simp [SoftLock.withAccess, AccessGuard.drop, hp]
        rfl
    | false =>
        refine ⟨{ s with pending := false }, rfl, Relation.ReflTransGen.single ?_⟩
        simp [SoftLock.withAccess, AccessGuard.drop, hp]
  obtain ⟨s', hp, hl⟩ := hstart
  refine ⟨{ s' with locked := false }, hl.trans (Leads.head rfl (Leads.head ?_ .refl))⟩
  simp [SoftLock.withAccess, AccessGuard.drop, hp]

/-- Once its closure is at an end, an access that runs alone is over after finitely many steps. -/
theorem alone_ends {i : ι} {acts : List DemoAct}
    {c c' : Config (SoftLock DemoInner) ι DemoPhase}
    (hr : Reachable SoftLock.step (fresh DemoInner.new) c)
    (hrun : exec SoftLock.step c (acts.map fun act => (i, act)) = some c')
    {ret : Option Nat} (hready : c'.thread i = .full (FullClosure.ready ret)) (unwinding : Bool) :
    ∃ n c'', exec SoftLock.step c' ((i, .exit unwinding) :: List.replicate n (i, .step))
      = some c'' ∧ c''.thread i = .idle := by
  have hr' : Reachable SoftLock.step (fresh DemoInner.new) c' := hr.trans ⟨_, hrun⟩
  have hheld : c'.shared.content.queue.held = false := by
    have hholding : (c'.thread i).Holding := by
      rw [hready]
      trivial
    have hled := (owned_some (demo_owned hr') hholding).2
    rw [hready] at hled
    exact hled.2.held
  obtain ⟨s, hl⟩ := leads_drop c'.shared hheld
  obtain ⟨n, hn⟩ := Config.exec_repeat hl (Function.update c'.thread i .dropSwap)
    (Function.update_self i _ _)
  refine ⟨n, ⟨s, Function.update (Function.update c'.thread i .dropSwap) i .idle⟩, ?_,
    Function.update_self i _ _⟩
  rw [exec_cons, Option.bind_eq_some_iff]
  refine ⟨_, Config.step_eq_some.mpr ⟨c'.shared, .dropSwap, ?_, rfl⟩, hn⟩
  show SoftLock.withAccess c'.shared (c'.thread i) (.exit unwinding) = _
  rw [hready]
  rfl

/--
**The pending flag never forgets recorded work.**

Recorded work is announced by the flag, about to be announced, or about to be
taken. So one access run alone, whatever its closure does, gets the lock, comes
to its end once the closure does, and then nothing is pended and everything
recorded before has its id in the queue, or popped out of it again.
-/
theorem recorded_work_known {c : Config (SoftLock DemoInner) ι DemoPhase}
    (hr : Reachable SoftLock.step (fresh DemoInner.new) c) :
    (0 < c.shared.content.pendingSubmit →
        c.shared.pending = true ∨ (∃ i, (c.thread i).Recorded) ∨ ∃ i, (c.thread i).Draining)
      ∧ (Quiescent c →
          ∀ (i : ι) (acts : List DemoAct) (c' : Config (SoftLock DemoInner) ι DemoPhase),
          acts ≠ [] → exec SoftLock.step c (acts.map fun act => (i, act)) = some c' →
          ¬ (c'.thread i).PendOnly
            ∧ (c'.thread i = .idle →
                Drained c'.shared ∧ Queued c.shared.content c'.shared.content)
            ∧ ∀ ret unwinding, c'.thread i = .full (FullClosure.ready ret) →
                ∃ n c'', exec SoftLock.step c'
                    ((i, .exit unwinding) :: List.replicate n (i, .step)) = some c''
                  ∧ c''.thread i = .idle) := by
  refine ⟨pendingKnown_reachable hr, ?_⟩
  intro hq i acts c' hne hrun
  refine ⟨(alone_run hr hq hrun).full, alone_drains hr hq hne hrun, ?_⟩
  intro ret unwinding hready
  exact alone_ends hr hrun hready unwinding

/-- Thread 0 gets the lock and submits directly; its closure is then at an end. -/
def loneClosure : List DemoAct := [.step, .full .submitDirect] ++ List.replicate 5 (.full .next)

/-- The same, and thread 0 drains and returns. -/
def loneAccess : List DemoAct := loneClosure ++ [.exit false] ++ List.replicate 10 .step

/-- After the stranding run of two threads the flag announces the one submission that was left. A
lone access of thread 0 gets the lock and can come to its end; at its end its own submission is
queued as 1 and the one that was left as 2. -/
theorem recorded_work_known_stranded :
    ∃ c c₁ c', exec SoftLock.step (fresh DemoInner.new) strandedRun = some c
      ∧ exec SoftLock.step c (loneClosure.map fun act => (0, act)) = some c₁
      ∧ exec SoftLock.step c (loneAccess.map fun act => (0, act)) = some c'
      ∧ c.shared.content.pendingSubmit = 1 ∧ c'.shared.content.queue.items = [1, 2]
      ∧ (c.shared.pending = true ∨ (∃ i, (c.thread i).Recorded) ∨ ∃ i, (c.thread i).Draining)
      ∧ ¬ (c₁.thread 0).PendOnly
      ∧ (∃ n c'', exec SoftLock.step c₁ ((0, .exit false) :: List.replicate n (0, .step)) = some c''
          ∧ c''.thread 0 = .idle)
      ∧ Drained c'.shared ∧ Queued c.shared.content c'.shared.content := by
  have hrun : ((exec SoftLock.step (fresh DemoInner.new) strandedRun).bind fun c =>
      (exec SoftLock.step c (loneAccess.map fun act => (0, act))).map fun c' =>
        (((c.thread 0).isIdle, (c.thread 1).isIdle, (c'.thread 0).isIdle),
          c.shared.content.pendingSubmit, c'.shared.content.queue.items))
        = some ((true, true, true), 1, [1, 2]) := by decide +kernel
  have hready : ((exec SoftLock.step (fresh DemoInner.new) strandedRun).bind fun c =>
      (exec SoftLock.step c (loneClosure.map fun act => (0, act))).map fun c₁ => c₁.thread 0)
        = some (.full (FullClosure.ready none)) := rfl
  obtain ⟨c, hc, hrun⟩ := Option.bind_eq_some_iff.mp hrun
  obtain ⟨c', hc', hrun⟩ := Option.map_eq_some_iff.mp hrun
  rw [hc, Option.bind_some] at hready
  obtain ⟨c₁, hc₁, hready⟩ := Option.map_eq_some_iff.mp hready
  simp only [Prod.mk.injEq] at hrun
  obtain ⟨⟨h0, h1, hend⟩, hsubmit, hitems⟩ := hrun
  have hq : Quiescent c := by
    intro i
    rcases Fin.exists_fin_two.mp ⟨i, rfl⟩ with rfl | rfl
    · exact Phase.isIdle_iff.mp h0
    · exact Phase.isIdle_iff.mp h1
  obtain ⟨hknown, halone⟩ := recorded_work_known ⟨strandedRun, hc⟩
  obtain ⟨hfull, -, hends⟩ := halone hq 0 loneClosure c₁ (by decide) hc₁
  obtain ⟨-, hdone, -⟩ := halone hq 0 loneAccess c' (by decide) hc'
  obtain ⟨hdrained, hqueued⟩ := hdone (Phase.isIdle_iff.mp hend)
  exact ⟨c, c₁, c', hc, hc₁, hc', hsubmit, hitems, hknown (by omega), hfull,
    hends none false hready, hdrained, hqueued⟩

end Hopter
