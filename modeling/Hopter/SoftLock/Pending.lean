import Hopter.SoftLock.Ledger

/-!
# The pending flag and the work it stands for

`pending_submit` counts recorded submissions and `pending` says that there may be
some. Producer and holder write the two in opposite orders, so the flag can be
false while the counter is not; `PendingKnown` lists the only two reasons for
that: a guard that has recorded and has not yet set the flag, or a holder that
has cleared the flag and has not yet taken the counter.

The first reason is a gap for threads. A guard that lost the race for `locked`
may set the flag when the holder has already looked at it for the last time.
`no_stranded_work_iff` says that this, with nobody left to find the flag, is the
only way work is stranded.
-/

namespace Hopter

open Conc

/-- A guard without the lock whose closure has recorded a submission, before it sets the flag. -/
def Phase.Recorded : DemoPhase → Prop
  | .pend a | .dropPend a => 0 < PendClosure.recorded a
  | _ => False

/-- In `drop`, between the swap that cleared `pending` and the swap of the counter. -/
def Phase.Draining (p : DemoPhase) : Prop := p = .dropRun RunPended.swap

/-- The drain takes the whole counter at its `swap`, and adds nothing to it anywhere. -/
theorem runPendedOp_takes {d d' : DemoInner} {r : RunPended} {next : Option RunPended}
    (h : InnerFullAccessor.runPendedOp d r = (d', next)) :
    d'.pendingSubmit = 0 ∨ r ≠ .swap ∧ d'.pendingSubmit ≤ d.pendingSubmit := by
  have hle := (runPendedOp_effect d r).pendingSubmit_le
  rw [h] at hle
  cases r with
  | swap => exact Or.inl (congrArg (fun p => p.1.pendingSubmit) h).symm
  | batches _ | items _ | lock _ | loop _ | push _ _ => exact Or.inr ⟨nofun, hle⟩

section

variable {ι : Type} [DecidableEq ι]

/-- Recorded work is announced, about to be announced, or about to be taken. -/
def PendingKnown (c : Config (SoftLock DemoInner) ι DemoPhase) : Prop :=
  0 < c.shared.content.pendingSubmit →
    c.shared.pending = true ∨ (∃ i, (c.thread i).Recorded) ∨ ∃ i, (c.thread i).Draining

/-- What is known about recorded work survives a step of thread `i` that records nothing, leaves
the flag up if it was up, and leaves its reason standing if it was one. -/
theorem PendingKnown.keep {c : Config (SoftLock DemoInner) ι DemoPhase} (h : PendingKnown c)
    {i : ι} {s : SoftLock DemoInner} {p : DemoPhase}
    (hle : s.content.pendingSubmit ≤ c.shared.content.pendingSubmit)
    (hflag : c.shared.pending = true → s.pending = true)
    (hrec : (c.thread i).Recorded → p.Recorded)
    (hdrain : (c.thread i).Draining → p.Draining) :
    PendingKnown ⟨s, Function.update c.thread i p⟩ := by
  intro hpos
  rcases h (Nat.lt_of_lt_of_le hpos hle) with hf | hr | hd
  · exact Or.inl (hflag hf)
  · exact Or.inr (Or.inl (Config.exists_update hrec hr))
  · exact Or.inr (Or.inr (Config.exists_update hdrain hd))

omit [DecidableEq ι] in
theorem pendingKnown_init :
    PendingKnown (fresh DemoInner.new : Config (SoftLock DemoInner) ι DemoPhase) := by
  intro h
  exact absurd h (Nat.lt_irrefl 0)

/-- **Preserved by every step of every thread.** -/
theorem pendingKnown_step {c c' : Config (SoftLock DemoInner) ι DemoPhase} {e : ι × DemoAct}
    (h : PendingKnown c) (hs : SoftLock.step c e = some c') : PendingKnown c' := by
  obtain ⟨s', p', hP, rfl⟩ := Config.step_eq_some.mp hs
  obtain ⟨i, act⟩ := e
  have hstep := SoftLock.withAccess_cases hP
  generalize hp : c.thread i = p at hstep
  -- the reasons a thread can be are read off its phase
  have hno : ∀ {q : DemoPhase}, c.thread i = q → ¬ q.Recorded → ¬ q.Draining →
      ((c.thread i).Recorded → p'.Recorded) ∧ ((c.thread i).Draining → p'.Draining) := by
    intro q hq h1 h2
    rw [hq]
    exact ⟨fun h => absurd h h1, fun h => absurd h h2⟩
  cases hstep with
  | guardFull _ | guardPend _ | casFail _ | casOk _ | store | loadTrue _ | loadFalse _
  | fullExit _ =>
      obtain ⟨h1, h2⟩ := hno hp id nofun
      exact h.keep (Nat.le_refl _) id h1 h2
  | full hf =>
      obtain ⟨h1, h2⟩ := hno hp id nofun
      exact h.keep (FullClosure.step_effect hf).pendingSubmit_le id h1 h2
  | @pend a k d a' hf =>
      change PendClosure at a a'
      change a.step c.shared.content k = some (d, a') at hf
      cases k with
      | pendSubmit =>
          -- the guard itself is now the reason
          cases hf
          have hrec : Phase.Recorded (.pend (PendClosure.mk (a.recorded + 1))) := Nat.succ_pos _
          exact fun _ => Or.inr (Or.inl (Config.exists_update_self hrec))
      | addPendEntries =>
          cases hf
          refine h.keep (Nat.le_refl _) id ?_ ?_ <;> rw [hp]
          · exact id
          · exact nofun
  | pendExit _ =>
      refine h.keep (Nat.le_refl _) id ?_ ?_ <;> rw [hp]
      · exact id
      · exact nofun
  | swapTrue _ =>
      have hdrain : Phase.Draining (.dropRun RunPended.swap) := rfl
      exact fun _ => Or.inr (Or.inr (Config.exists_update_self hdrain))
  | swapFalse hf =>
      obtain ⟨h1, h2⟩ := hno hp id nofun
      exact h.keep (Nat.le_refl _) (fun ht => by rw [hf] at ht; cases ht) h1 h2
  | @run r d r' hr =>
      change RunPended at r r'
      change InnerFullAccessor.runPendedOp c.shared.content r = (d, some r') at hr
      rcases runPendedOp_takes hr with h0 | ⟨hr, hle⟩
      · exact fun hpos => absurd h0.symm (Nat.ne_of_lt hpos)
      · obtain ⟨h1, h2⟩ := hno hp id fun hd => hr (Phase.dropRun.inj hd)
        exact h.keep hle id h1 h2
  | @runEnd r d hr =>
      change RunPended at r
      change InnerFullAccessor.runPendedOp c.shared.content r = (d, none) at hr
      rcases runPendedOp_takes hr with h0 | ⟨hr, hle⟩
      · exact fun hpos => absurd h0.symm (Nat.ne_of_lt hpos)
      · obtain ⟨h1, h2⟩ := hno hp id fun hd => hr (Phase.dropRun.inj hd)
        exact h.keep hle id h1 h2
  | pendStore => exact fun _ => Or.inl rfl

theorem pendingKnown_reachable {c : Config (SoftLock DemoInner) ι DemoPhase}
    (h : Reachable SoftLock.step (fresh DemoInner.new) c) : PendingKnown c :=
  h.invariant (I := PendingKnown) pendingKnown_init (fun _ ih hs => pendingKnown_step ih hs)

/-! ## With nobody in the way -/

/-- Nothing is pended, and every submission so far has one id, queued or popped. -/
structure Drained (s : SoftLock DemoInner) : Prop where
  pending : s.pending = false
  pendingSubmit : s.content.pendingSubmit = 0
  pends : s.content.hist.pends = s.content.hist.drained
  ids : s.content.hist.popped ++ s.content.queue.items
    = List.range' 1 (s.content.hist.directs + s.content.hist.pends)
  processed : s.content.processed = s.content.hist.popped.length

/-- With the lock free and nothing pended the books are closed. -/
theorem drained_of_free {c : Config (SoftLock DemoInner) ι DemoPhase}
    (h : Reachable SoftLock.step (fresh DemoInner.new) c) (hnone : ∀ i, ¬ (c.thread i).Holding)
    (hf : c.shared.pending = false) (hzero : c.shared.content.pendingSubmit = 0) :
    Drained c.shared := by
  obtain ⟨-, hpend, hqueue⟩ := owned_none (demo_owned h) hnone
  have hrec := hpend.recorded
  have hpushed := hqueue.pushed
  have hproc := hqueue.processed
  simp only [useOf_none, Use.inHand] at hrec hpushed hproc
  have hpends : c.shared.content.hist.pends = c.shared.content.hist.drained := by omega
  refine ⟨hf, hzero, hpends, ?_, by omega⟩
  rw [hpends, hpushed]
  exact hqueue.ids

/-! ## Threads that are all outside -/

/-- No access is in progress. -/
def Quiescent (c : Config (SoftLock DemoInner) ι DemoPhase) : Prop := ∀ i, c.thread i = .idle

omit [DecidableEq ι] in
/-- With no access in progress, recorded work is announced. -/
theorem Quiescent.pendingSubmit_eq_zero {c : Config (SoftLock DemoInner) ι DemoPhase}
    (hq : Quiescent c) (h : PendingKnown c) (hf : c.shared.pending = false) :
    c.shared.content.pendingSubmit = 0 := by
  by_contra hne
  rcases h (Nat.pos_of_ne_zero hne) with ht | ⟨i, hi⟩ | ⟨i, hi⟩
  · rw [hf] at ht
    cases ht
  · rw [hq i] at hi
    exact hi
  · rw [hq i] at hi
    cases hi

/-- The step that ends an access: a last look at a flag that is down, or raising the flag. -/
theorem step_to_idle {s s' : SoftLock DemoInner} {p : DemoPhase} {act : DemoAct}
    (h : SoftLock.withAccess s p act = some (s', .idle)) :
    (p = .dropLoad ∧ s.pending = false ∧ s' = s) ∨
      (∃ a, p = .dropPend a) ∧ act = .step ∧ s' = { s with pending := true } := by
  generalize hq : (Phase.idle : DemoPhase) = q at h
  have hstep := SoftLock.withAccess_cases h
  cases hstep <;> cases hq
  case loadFalse hf => exact Or.inl ⟨rfl, hf, rfl⟩
  case pendStore a =>
      refine Or.inr ⟨⟨a, rfl⟩, ?_, rfl⟩
      cases act <;> first | rfl | simp [SoftLock.withAccess] at h

/-! ## Work that nobody is left to find -/

/-- Every access that ends without the lock ends while another one is in progress. -/
def NeverLastPendOnly (es : List (ι × DemoAct)) : Prop :=
  ∀ (d : Config (SoftLock DemoInner) ι DemoPhase) (i : ι),
    Takes SoftLock.step (fresh DemoInner.new) es d (i, .step) →
      (∃ a, d.thread i = .dropPend a) → ∃ j, j ≠ i ∧ d.thread j ≠ .idle

/--
**When threads strand no work.**

A run leaves nothing pended at any moment without an access in progress exactly
when no PendOnly guard's `pending.store(true)` is the last step of the last access
in progress. The access that empties the lock is otherwise a Full one, which has
just seen the flag down.
-/
theorem no_stranded_work_iff {es : List (ι × DemoAct)}
    {c : Config (SoftLock DemoInner) ι DemoPhase}
    (hrun : exec SoftLock.step (fresh DemoInner.new) es = some c) :
    (∀ d, Visits SoftLock.step (fresh DemoInner.new) es d → Quiescent d →
        d.shared.pending = false ∧ d.shared.content.pendingSubmit = 0)
      ↔ NeverLastPendOnly es := by
  constructor
  · intro h d i htake hpend
    by_contra hlast
    have hlast : ∀ j, j ≠ i → d.thread j = .idle := by
      intro j hj
      by_contra hne
      exact hlast ⟨j, hj, hne⟩
    obtain ⟨d', hs⟩ := htake.possible hrun
    obtain ⟨a, ha⟩ := hpend
    -- the store leaves nobody inside, and the flag up
    have hstore := Config.local_of_step hs
    simp only [ha, SoftLock.withAccess, AccessGuard.drop, Option.some.injEq, Prod.mk.injEq]
      at hstore
    have hq : Quiescent d' := by
      intro j
      by_cases hj : j = i
      · subst hj
        exact hstore.2.symm
      · rw [Config.thread_of_step hs hj]
        exact hlast j hj
    obtain ⟨hf, -⟩ := h d' (htake.visits_next hs) hq
    rw [← hstore.1] at hf
    cases hf
  · intro h d hvisit hq
    have hknown := pendingKnown_reachable hvisit.reachable
    rcases hvisit.cases with rfl | ⟨d₀, ⟨i, act⟩, htake, hs⟩
    · exact ⟨rfl, rfl⟩
    · have hlocal := Config.local_of_step hs
      rw [hq i] at hlocal
      rcases step_to_idle hlocal with ⟨-, hf, heq⟩ | ⟨hpend, rfl, -⟩
      · rw [← heq] at hf
        exact ⟨hf, hq.pendingSubmit_eq_zero hknown hf⟩
      · obtain ⟨j, hj, hne⟩ := h d₀ i htake hpend
        rw [← Config.thread_of_step hs hj, hq j] at hne
        exact absurd rfl hne

end

/-- Thread 1 is turned away while thread 0 holds the lock, and records its submission only after
thread 0 has looked at the flag for the last time. -/
def strandedRun : List (Fin 2 × DemoAct) :=
  [(0, .step), (1, .step), (0, .exit false), (0, .step), (0, .step), (0, .step),
    (1, .pend .pendSubmit), (1, .exit false), (1, .step)]

theorem strandedRun_possible :
    ∃ c, exec SoftLock.step (fresh DemoInner.new) strandedRun = some c :=
  Option.isSome_iff_exists.mp (by decide +kernel)

theorem no_stranded_work_iff_stranded :
    (∀ d, Visits SoftLock.step (fresh DemoInner.new) strandedRun d → Quiescent d →
        d.shared.pending = false ∧ d.shared.content.pendingSubmit = 0)
      ↔ NeverLastPendOnly strandedRun := by
  obtain ⟨c, hc⟩ := strandedRun_possible
  exact no_stranded_work_iff hc

/-- Two threads can strand a submission. -/
theorem work_stranded :
    ¬ ∀ c : Config (SoftLock DemoInner) (Fin 2) DemoPhase,
      Reachable SoftLock.step (fresh DemoInner.new) c → Quiescent c →
        c.shared.pending = false ∧ c.shared.content.pendingSubmit = 0 := by
  intro h
  obtain ⟨c, hc⟩ := strandedRun_possible
  have hend : ((exec SoftLock.step (fresh DemoInner.new) strandedRun).map fun c =>
      ((c.thread 0).isIdle, (c.thread 1).isIdle, c.shared.content.pendingSubmit))
        = some (true, true, 1) := by decide +kernel
  rw [hc, Option.map_some, Option.some.injEq, Prod.mk.injEq, Prod.mk.injEq] at hend
  obtain ⟨h0, h1, hsubmit⟩ := hend
  have hq : Quiescent c := by
    intro i
    rcases Fin.exists_fin_two.mp ⟨i, rfl⟩ with rfl | rfl
    · exact Phase.isIdle_iff.mp h0
    · exact Phase.isIdle_iff.mp h1
  have hzero := (h c ⟨strandedRun, hc⟩ hq).2
  omega

end Hopter
