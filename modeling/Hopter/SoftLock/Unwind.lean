import Hopter.SoftLock.Ledger

/-!
# Unwinding

What a panic does to the soft lock. A Full closure that unwinds with the queue
mutex in hand poisons it, and from then on the `expect` after each
`queue.lock()` unwinds too. In a closure that is harmless: the guard's `drop`
runs on the way out. Inside `run_pended_op` it is not. By then the count is out
of `pending_submit` and in `drained_items`, and when it is `drop` itself that
called, `locked` is never stored again.

`usable_iff` says that this is the only way the lock can be damaged.
-/

namespace Hopter

open Conc

/-- The soft lock, and whether the queue mutex of its content is poisoned. -/
structure Poisonable where
  lock : SoftLock DemoInner
  poisoned : Bool

/-- Where a thread is, and whether it is unwinding there. -/
structure UnwindPhase where
  phase : DemoPhase
  unwinding : Bool

inductive UnwindAct where
  /-- An atomic step of the code. -/
  | op (act : DemoAct)
  /-- A Full closure takes the queue mutex itself, and unwinds with it. -/
  | panicLocked

/-- `expect("queue mutex poisoned")` is about to fail. -/
def Poisonable.expectFails (s : Poisonable) (p : DemoPhase) : Bool :=
  p.locksQueue && !s.lock.content.queue.held && s.poisoned

theorem Poisonable.locks_of_fails {s : Poisonable} {p : DemoPhase} (h : s.expectFails p = true) :
    p.locksQueue = true := by
  unfold Poisonable.expectFails at h
  rw [Bool.and_eq_true, Bool.and_eq_true] at h
  exact h.1.1

/-- Whether a thread unwinds after a step that did not panic. -/
def UnwindPhase.after (t : UnwindPhase) (act : DemoAct) : Bool :=
  match t.phase, act with
  | .idle, _ => false
  | _, .exit unwinding => unwinding
  | _, _ => t.unwinding

/-- `SoftLock::with_access`, with the panics of the queue mutex. A second panic while unwinding
aborts, and is no step. -/
def SoftLock.withAccessUnwind : Proc Poisonable UnwindPhase UnwindAct := fun s t act =>
  match act with
  | .op act =>
      match SoftLock.withAccess s.lock t.phase act with
      | none => none
      | some (lock, p) =>
          if s.expectFails t.phase then
            match t.phase with
            | .dropRun _ =>
                -- out of `drop`, and past the end of `with_access`
                if t.unwinding then none else some (s, ⟨.idle, false⟩)
            | _ => some (s, ⟨.dropSwap, true⟩)
          else some ({ s with lock := lock }, ⟨p, t.after act⟩)
  | .panicLocked =>
      match t.phase with
      | .full (FullClosure.ready _) =>
          if s.lock.content.queue.held then none
          else some ({ s with poisoned := true }, ⟨.dropSwap, true⟩)
      | _ => none

/-- What a step is, with the panics. -/
inductive UnwindStep (s : Poisonable) (t : UnwindPhase) : Poisonable → UnwindPhase → Prop where
  | op {act lock p u} : SoftLock.withAccess s.lock t.phase act = some (lock, p) →
      UnwindStep s t { s with lock := lock } ⟨p, u⟩
  | closure {a} : t.phase = .full a → s.expectFails t.phase = true →
      UnwindStep s t s ⟨.dropSwap, true⟩
  | drop {r} : t.phase = .dropRun r → s.expectFails t.phase = true →
      UnwindStep s t s ⟨.idle, false⟩
  | panicLocked {ret} : t.phase = .full (FullClosure.ready ret) →
      UnwindStep s t { s with poisoned := true } ⟨.dropSwap, true⟩

/-- **Inversion.** -/
theorem SoftLock.withAccessUnwind_cases {s s' : Poisonable} {t t' : UnwindPhase} {act : UnwindAct}
    (h : SoftLock.withAccessUnwind s t act = some (s', t')) : UnwindStep s t s' t' := by
  cases act with
  | op act =>
      simp only [SoftLock.withAccessUnwind] at h
      split at h
      · cases h
      · rename_i lock p hop
        split at h
        · rename_i hfail
          split at h
          · rename_i r hr
            split at h
            · cases h
            · cases h
              exact .drop hr hfail
          · rename_i hno
            cases h
            -- only Full access locks the queue
            have hlocks := Poisonable.locks_of_fails hfail
            generalize hp : t.phase = q at hno hlocks
            cases q with
            | full a => exact .closure hp hfail
            | dropRun r => exact absurd rfl (hno r)
            | _ => cases hlocks
        · cases h
          exact .op hop
  | panicLocked =>
      simp only [SoftLock.withAccessUnwind] at h
      split at h
      · rename_i ret hp
        split at h
        · cases h
        · cases h
          exact .panicLocked hp
      · cases h

/-! ## The drain that finds the mutex poisoned -/

/-- About to lock the queue in `run_pended_op`, with a count in hand. -/
def Phase.DrainsAtLock (p : DemoPhase) (n : Nat) : Prop :=
  p = .dropRun (RunPended.lock n) ∨ p = .full (FullClosure.runPendedOp (.lock n))

/-- A count that was taken and not yet pushed is not zero. -/
def RunPended.Positive : RunPended → Prop
  | .batches n | .items n | .lock n => 0 < n
  | _ => True

def FullClosure.Positive : FullClosure → Prop
  | .runPendedOp pc => pc.Positive
  | _ => True

def Phase.Positive : DemoPhase → Prop
  | .full a => FullClosure.Positive a
  | .dropRun r => RunPended.Positive r
  | _ => True

theorem runPendedOp_positive {d d' : DemoInner} {r r' : RunPended} (h : r.Positive)
    (hs : InnerFullAccessor.runPendedOp d r = (d', some r')) : r'.Positive := by
  cases r with
  | swap =>
      simp only [InnerFullAccessor.runPendedOp, Prod.mk.injEq] at hs
      split at hs
      · cases hs.2
      · rename_i hne
        cases hs.2
        exact Nat.pos_of_ne_zero hne
  | batches n =>
      cases hs
      exact h
  | items n =>
      cases hs
      exact h
  | lock n =>
      simp only [InnerFullAccessor.runPendedOp] at hs
      split at hs <;> cases hs
      · exact h
      · trivial
  | loop k => cases k <;> cases hs; trivial
  | push k id =>
      cases hs
      trivial

theorem positive_step {s s' : SoftLock DemoInner} {p p' : DemoPhase} {act : DemoAct}
    (h : p.Positive) (hs : SoftLock.withAccess s p act = some (s', p')) : p'.Positive := by
  cases SoftLock.withAccess_cases hs with
  | @full a k d a' hf =>
      change FullClosure at a a'
      change a.step s.content k = some (d, a') at hf
      show a'.Positive
      cases a with
      | ready ret => cases k <;> cases hf <;> trivial
      | runPendedOp pc =>
          cases k <;> simp only [FullClosure.step, reduceCtorEq] at hf
          split at hf <;> rename_i hr <;> cases hf
          · exact runPendedOp_positive h hr
          · trivial
      | submitDirect pc | processSome pc | queueLen pc =>
          cases k <;> simp only [FullClosure.step, reduceCtorEq] at hf
          split at hf <;> cases hf <;> trivial
  | @run r d r' hr => exact @runPendedOp_positive s.content d r r' h hr
  | _ => trivial

/-! ## The accounts of the pended work -/

/-- What is promised: the lock is released by whoever does not hold it, and recorded work is
accounted for. -/
def UnwindPromise (s : Poisonable) (o : Option UnwindPhase) : Prop :=
  Promise (fun d u => PendLedger d u.inHand) s.lock (o.map fun t => t.phase)

/-- A closure that unwinds at a `queue.lock()` other than a drain's has nothing pended in hand. -/
theorem pendLedger_unwind {d : DemoInner} {a : FullClosure} (hlock : a.locksQueue = true)
    (hno : ∀ n, a ≠ .runPendedOp (.lock n)) (h : PendLedger d a.inHand) : PendLedger d {} := by
  cases a with
  | ready ret => cases hlock
  | submitDirect pc =>
      cases pc with
      | lock id => exact ⟨h.recorded, h.logged⟩
      | _ => cases hlock
  | processSome pc =>
      cases pc with
      | lock budget => exact ⟨h.recorded, h.logged⟩
      | _ => cases hlock
  | queueLen pc =>
      cases pc with
      | lock => exact ⟨h.recorded, h.logged⟩
      | _ => cases hlock
  | runPendedOp pc =>
      cases pc with
      | lock n => exact absurd rfl (hno n)
      | _ => cases hlock

/-- A step that is not a drain's failure keeps the promise. -/
theorem unwind_owner {s s' : Poisonable} {t t' : UnwindPhase}
    (h : UnwindStep s t s' t')
    (hno : ∀ n, t.phase.DrainsAtLock n → s.expectFails t.phase = false) :
    OwnerStep (fun t => t.phase.Holding) UnwindPromise s t s' t' := by
  have hlocks : s.expectFails t.phase = true → t.phase.locksQueue = true :=
    Poisonable.locks_of_fails
  cases h with
  | @op act lock p u hP =>
      have hbase := contentInv_pendLedger.owner.step hP
      refine ⟨fun hh hj => hbase.own hh hj, ?_⟩
      intro o hh hj
      rcases hbase.other hh hj with hkeep | ⟨hp, ho, hj'⟩
      · exact Or.inl hkeep
      · exact Or.inr ⟨hp, Option.map_eq_none_iff.mp ho, hj'⟩
  | @closure a ha hfail =>
      rw [ha] at hlocks hfail
      refine ⟨fun _ hj => ?_, fun hh _ => absurd (by rw [ha]; trivial) hh⟩
      obtain ⟨hl, hled⟩ := hj
      rw [Option.map_some, useOf_some, ha] at hled
      refine Or.inl ⟨trivial, hl, ?_⟩
      refine pendLedger_unwind (hlocks hfail) ?_ hled
      rintro n rfl
      rw [ha] at hno
      rw [hno n (Or.inr rfl)] at hfail
      cases hfail
  | @drop r hr hfail =>
      exfalso
      change RunPended at r
      rw [hr] at hlocks hno hfail
      cases r with
      | lock n =>
          rw [hno n (Or.inl rfl)] at hfail
          cases hfail
      | _ => cases hlocks hfail
  | @panicLocked ret ha =>
      refine ⟨fun _ hj => ?_, fun hh _ => absurd (by rw [ha]; trivial) hh⟩
      obtain ⟨hl, hled⟩ := hj
      rw [Option.map_some, useOf_some, ha] at hled
      exact Or.inl ⟨trivial, hl, hled⟩

/-! ## What is in the queue -/

/-- How many ids were ever pushed. -/
def DemoInner.pushed (d : DemoInner) : Nat := d.hist.popped.length + d.queue.items.length

/-- The next step pushes an id that `submit_direct` drew. -/
def FullClosure.pushesDirect : FullClosure → Bool
  | .submitDirect (.push _) => true
  | _ => false

def Phase.pushesDirect : DemoPhase → Bool
  | .full a => FullClosure.pushesDirect a
  | _ => false

/-- A piece of content code pushes `n` ids besides those of a drain. -/
def DemoInner.Pushes (n : Nat) (d d' : DemoInner) : Prop :=
  d'.pushed + d.hist.drained = d.pushed + d'.hist.drained + n

theorem DemoInner.Pushes.of_same {d d' : DemoInner} (hq : d'.pushed = d.pushed)
    (hh : d'.hist.drained = d.hist.drained) : DemoInner.Pushes 0 d d' := by
  unfold DemoInner.Pushes
  rw [hq, hh, Nat.add_zero]

theorem submitDirect_pushes (d : DemoInner) (pc : SubmitDirect) :
    DemoInner.Pushes (FullClosure.pushesDirect (.submitDirect pc)).toNat d
      (InnerFullAccessor.submitDirect d pc).1 := by
  cases pc with
  | push id =>
      simp only [DemoInner.Pushes, DemoInner.pushed, InnerFullAccessor.submitDirect,
        DemoInner.pushBack, List.length_append, List.length_singleton, FullClosure.pushesDirect,
        Bool.toNat_true]
      omega
  | lock id =>
      simp only [InnerFullAccessor.submitDirect]
      split <;> exact .of_same rfl rfl
  | draw | count | unlock => exact .of_same rfl rfl

/-- A pop only moves an id. -/
theorem processSome_pushes (d : DemoInner) (pc : ProcessSome) :
    DemoInner.Pushes 0 d (InnerFullAccessor.processSome d pc).1 := by
  cases pc with
  | lock budget =>
      simp only [InnerFullAccessor.processSome]
      split <;> exact .of_same rfl rfl
  | loop budget n =>
      simp only [InnerFullAccessor.processSome]
      split
      · split
        · rename_i id rest hq
          refine .of_same ?_ rfl
          simp only [DemoInner.pushed, hq, List.length_append, List.length_cons, List.length_nil]
          omega
        · exact .of_same rfl rfl
      · exact .of_same rfl rfl
  | count budget n | unlock n => exact .of_same rfl rfl

theorem queueLen_pushes (d : DemoInner) (pc : QueueLen) :
    DemoInner.Pushes 0 d (InnerFullAccessor.queueLen d pc).1 := by
  cases pc with
  | lock =>
      simp only [InnerFullAccessor.queueLen]
      split <;> exact .of_same rfl rfl
  | read | unlock len => exact .of_same rfl rfl

/-- A drain counts each of its pushes. -/
theorem runPendedOp_pushes (d : DemoInner) (pc : RunPended) :
    DemoInner.Pushes 0 d (InnerFullAccessor.runPendedOp d pc).1 := by
  cases pc with
  | lock n =>
      simp only [InnerFullAccessor.runPendedOp]
      split <;> exact .of_same rfl rfl
  | loop k => cases k <;> exact .of_same rfl rfl
  | push k id =>
      simp only [DemoInner.Pushes, DemoInner.pushed, InnerFullAccessor.runPendedOp,
        DemoInner.pushBack, List.length_append, List.length_singleton]
      omega
  | swap | batches n | items n => exact .of_same rfl rfl

theorem FullClosure.step_pushes {d d' : DemoInner} {a a' : FullClosure} {k : FullCall}
    (h : a.step d k = some (d', a')) : DemoInner.Pushes a.pushesDirect.toNat d d' := by
  cases a with
  | ready ret =>
      cases k <;> simp only [FullClosure.step, Option.some.injEq, Prod.mk.injEq, reduceCtorEq] at h
      all_goals obtain ⟨rfl, -⟩ := h; exact .of_same rfl rfl
  | submitDirect pc =>
      have hp := submitDirect_pushes d pc
      cases k <;> simp only [FullClosure.step, reduceCtorEq] at h
      split at h <;> rename_i hm <;> cases h <;> rw [hm] at hp <;> exact hp
  | processSome pc =>
      have hp := processSome_pushes d pc
      cases k <;> simp only [FullClosure.step, reduceCtorEq] at h
      split at h <;> rename_i hm <;> cases h <;> rw [hm] at hp <;> exact hp
  | queueLen pc =>
      have hp := queueLen_pushes d pc
      cases k <;> simp only [FullClosure.step, reduceCtorEq] at h
      split at h <;> rename_i hm <;> cases h <;> rw [hm] at hp <;> exact hp
  | runPendedOp pc =>
      have hp := runPendedOp_pushes d pc
      cases k <;> simp only [FullClosure.step, reduceCtorEq] at h
      split at h <;> rename_i hm <;> cases h <;> rw [hm] at hp <;> exact hp

theorem withAccess_pushes {s s' : SoftLock DemoInner} {p p' : DemoPhase} {act : DemoAct}
    (h : SoftLock.withAccess s p act = some (s', p')) :
    DemoInner.Pushes p.pushesDirect.toNat s.content s'.content := by
  cases SoftLock.withAccess_cases h with
  | full hf => exact FullClosure.step_pushes hf
  | @pend a k d a' hf => cases k <;> cases hf <;> exact .of_same rfl rfl
  | @fullExit a hready =>
      change FullClosure.isReady a = true at hready
      cases a with
      | ready ret => exact .of_same rfl rfl
      | _ => cases hready
  | @run r d r' hr =>
      have hp := runPendedOp_pushes s.content r
      rw [show InnerFullAccessor.runPendedOp s.content r = (d, some r') from hr] at hp
      exact hp
  | @runEnd r d hr =>
      have hp := runPendedOp_pushes s.content r
      rw [show InnerFullAccessor.runPendedOp s.content r = (d, none) from hr] at hp
      exact hp
  | _ => exact .of_same rfl rfl

/-- An `expect` that fails, or a panic, pushes nothing. -/
theorem unwind_pushes {s s' : Poisonable} {t t' : UnwindPhase} (h : UnwindStep s t s' t') :
    DemoInner.Pushes t.phase.pushesDirect.toNat s.lock.content s'.lock.content := by
  have hlocks : t.phase.locksQueue = true → t.phase.pushesDirect = false := by
    intro hl
    generalize t.phase = p at hl
    cases p with
    | full a =>
        change FullClosure at a
        show a.pushesDirect = false
        cases a with
        | submitDirect pc =>
            cases pc with
            | push id => cases hl
            | _ => rfl
        | _ => rfl
    | _ => rfl
  have hfails : s.expectFails t.phase = true → t.phase.pushesDirect = false :=
    fun hfail => hlocks (Poisonable.locks_of_fails hfail)
  cases h with
  | op hP => exact withAccess_pushes hP
  | closure _ hfail | drop _ hfail =>
      rw [hfails hfail]
      exact .of_same rfl rfl
  | panicLocked hp =>
      rw [hp]
      exact .of_same rfl rfl

section

variable {ι : Type} [DecidableEq ι]

/-- One atomic step of one of the threads, with the panics. -/
abbrev SoftLock.unwindStep : Config Poisonable ι UnwindPhase → ι × UnwindAct →
    Option (Config Poisonable ι UnwindPhase) :=
  Config.step SoftLock.withAccessUnwind

/-- A fresh lock that nobody uses yet, with a sound queue mutex. -/
def freshUnwind : Config Poisonable ι UnwindPhase where
  shared := { lock := SoftLock.new DemoInner.new, poisoned := false }
  thread := fun _ => { phase := .idle, unwinding := false }

/-- The lock is usable: it is taken only by an access in progress, every recorded submission is in
`pending_submit`, was queued, or is in that access's hands, and `drained_items` counts those queued
and in hand. -/
structure Usable (c : Config Poisonable ι UnwindPhase) : Prop where
  released : c.shared.lock.locked = true → ∃ i, (c.thread i).phase.Holding
  accounted : ∃ o, Owner Phase.Holding (fun i => (c.thread i).phase) o
    ∧ PendLedger c.shared.lock.content (useOf o).inHand

/-- No `run_pended_op`, of a closure or of `drop`, finds the queue mutex poisoned with a count in
hand. -/
def NeverDrainsPoisoned (es : List (ι × UnwindAct)) : Prop :=
  ∀ (d : Config Poisonable ι UnwindPhase) (i : ι) (act : DemoAct) (n : Nat),
    Takes SoftLock.unwindStep freshUnwind es d (i, .op act) →
      (d.thread i).phase.DrainsAtLock n → d.shared.expectFails (d.thread i).phase = false

omit [DecidableEq ι] in
theorem usable_of_owned {c : Config Poisonable ι UnwindPhase}
    (h : Owned (fun t => t.phase.Holding) UnwindPromise c) : Usable c := by
  obtain ⟨o, ho, hl, hled⟩ := h
  refine ⟨fun hlocked => ?_, _, ho.map, hled⟩
  rw [hlocked, Option.isSome_map] at hl
  cases o with
  | none => cases hl
  | some t =>
      obtain ⟨i, hi, hhold, -⟩ := ho
      exact ⟨i, by rw [hi]; exact hhold⟩

/-- An `expect` that fails changes nothing that is shared. -/
theorem expect_fails {d d' : Config Poisonable ι UnwindPhase} {i : ι} {act : DemoAct}
    (hs : SoftLock.unwindStep d (i, .op act) = some d')
    (hfail : d.shared.expectFails (d.thread i).phase = true) :
    d'.shared = d.shared ∧ ((d'.thread i).phase = .dropSwap ∨ (d'.thread i).phase = .idle) := by
  have hlocal := Config.local_of_step hs
  simp only [SoftLock.withAccessUnwind, hfail, if_true] at hlocal
  split at hlocal
  · cases hlocal
  · split at hlocal
    · split at hlocal
      · cases hlocal
      · rw [Option.some.injEq, Prod.mk.injEq] at hlocal
        exact ⟨hlocal.1.symm, Or.inr (by rw [← hlocal.2])⟩
    · rw [Option.some.injEq, Prod.mk.injEq] at hlocal
      exact ⟨hlocal.1.symm, Or.inl (by rw [← hlocal.2])⟩

/-- A drain that fails at the lock loses what it took. -/
theorem not_usable_after {d d' : Config Poisonable ι UnwindPhase} {i : ι} {act : DemoAct} {n : Nat}
    (hd : Usable d) (hpos : (d.thread i).phase.Positive)
    (hs : SoftLock.unwindStep d (i, .op act) = some d')
    (hn : (d.thread i).phase.DrainsAtLock n)
    (hfail : d.shared.expectFails (d.thread i).phase = true) : ¬ Usable d' := by
  rintro ⟨-, o', ho', hled'⟩
  obtain ⟨-, o, ho, hled⟩ := hd
  obtain ⟨hshared, hend⟩ := expect_fails hs hfail
  -- before the step the count is in the holder's hands
  have hbefore : (useOf o).inHand.owed = n ∧ 0 < n ∧ (d.thread i).phase.Holding := by
    rcases hn with hp | hp
    · rw [hp] at hpos
      have hhold : (d.thread i).phase.Holding := by rw [hp]; trivial
      have hio := ho.eq_some (i := i) hhold
      rw [hio, useOf_some, hp]
      exact ⟨rfl, hpos, trivial⟩
    · rw [hp] at hpos
      have hhold : (d.thread i).phase.Holding := by rw [hp]; trivial
      have hio := ho.eq_some (i := i) hhold
      rw [hio, useOf_some, hp]
      exact ⟨rfl, hpos, trivial⟩
  -- after it nobody has anything in hand
  have hafter : (useOf o').inHand.owed = 0 := by
    rcases hend with hp | hp
    · have hhold : (d'.thread i).phase.Holding := by rw [hp]; trivial
      rw [ho'.eq_some (i := i) hhold, useOf_some, hp]
      rfl
    · have hnone : ∀ j, ¬ (d'.thread j).phase.Holding := by
        intro j hj
        by_cases hji : j = i
        · rw [hji, hp] at hj
          exact hj
        · rw [Config.thread_of_step hs hji] at hj
          exact hji (ho.unique hj hbefore.2.2)
      rw [ho'.eq_none hnone]
      rfl
  have hrec := hled.recorded
  have hrec' := hled'.recorded
  rw [hshared] at hrec'
  omega

theorem positive_reachable {c : Config Poisonable ι UnwindPhase}
    (h : Reachable SoftLock.unwindStep freshUnwind c) : ∀ i, (c.thread i).phase.Positive := by
  refine h.invariant (I := fun c : Config Poisonable ι UnwindPhase =>
    ∀ i, (c.thread i).phase.Positive) ?_ ?_
  · intro i
    exact trivial
  intro d d' e _ ih hs j
  by_cases hj : j = e.1
  · subst hj
    have hstep := SoftLock.withAccessUnwind_cases (Config.local_of_step hs)
    have hpos := ih e.1
    generalize d'.thread e.1 = t', d'.shared = s' at hstep
    cases hstep with
    | op hP => exact positive_step hpos hP
    | closure _ _ | drop _ _ | panicLocked _ => trivial
  · rw [Config.thread_of_step hs hj]
    exact ih j

/-- The step pushes an id that `submit_direct` drew. -/
def pushesDirect (c : Config Poisonable ι UnwindPhase) (e : ι × UnwindAct) : Bool :=
  (c.thread e.1).phase.pushesDirect

/-- **What is in the queue**, and was popped out of it: the ids that drains pushed, and one for each
push of `submit_direct`, whatever unwinds. -/
theorem queued_unwind {es : List (ι × UnwindAct)} {c : Config Poisonable ι UnwindPhase}
    (hrun : exec SoftLock.unwindStep freshUnwind es = some c) :
    c.shared.lock.content.pushed
      = c.shared.lock.content.hist.drained
        + tally SoftLock.unwindStep pushesDirect freshUnwind es := by
  refine exec_history (I := fun es (c : Config Poisonable ι UnwindPhase) =>
    c.shared.lock.content.pushed = c.shared.lock.content.hist.drained
      + tally SoftLock.unwindStep pushesDirect freshUnwind es) rfl ?_ hrun
  intro es c c' e hexec ih hs
  have hpush :
      DemoInner.Pushes (pushesDirect c e).toNat c.shared.lock.content c'.shared.lock.content :=
    unwind_pushes (SoftLock.withAccessUnwind_cases (Config.local_of_step hs))
  unfold DemoInner.Pushes at hpush
  rw [tally_concat e hexec]
  omega

/-- While the lock is usable, the submissions that are no longer in `pending_submit`, nor in the
hands of the access in progress, are in the queue, or were popped out of it. -/
theorem Usable.queued {es : List (ι × UnwindAct)} {c : Config Poisonable ι UnwindPhase}
    (hc : Usable c) (hrun : exec SoftLock.unwindStep freshUnwind es = some c) :
    ∃ o, Owner Phase.Holding (fun i => (c.thread i).phase) o
      ∧ c.shared.lock.content.hist.pends + tally SoftLock.unwindStep pushesDirect freshUnwind es
        = c.shared.lock.content.pendingSubmit + (useOf o).inHand.owed
          + c.shared.lock.content.pushed := by
  obtain ⟨-, o, ho, hled⟩ := hc
  have hrec := hled.recorded
  have hpushed := queued_unwind hrun
  exact ⟨o, ho, by omega⟩

/--
**When the lock survives unwinding.**

A run leaves the lock usable in every state exactly when no drain finds the
queue mutex poisoned. Closures may unwind anywhere else, with the queue mutex in
hand or without, and guards may be dropped on the way.
-/
theorem usable_iff {es : List (ι × UnwindAct)} {c : Config Poisonable ι UnwindPhase}
    (hrun : exec SoftLock.unwindStep freshUnwind es = some c) :
    (∀ d, Visits SoftLock.unwindStep freshUnwind es d → Usable d) ↔ NeverDrainsPoisoned es := by
  constructor
  · intro h d i act n htake hn
    by_contra hfail
    rw [Bool.not_eq_false] at hfail
    obtain ⟨d', hs⟩ := htake.possible hrun
    have hvisit : Visits SoftLock.unwindStep freshUnwind es d := by
      obtain ⟨pre, hpre, hd⟩ := htake
      exact ⟨pre, (List.prefix_append pre _).trans hpre, hd⟩
    exact not_usable_after (h d hvisit) (positive_reachable htake.reachable i) hs hn hfail
      (h d' (htake.visits_next hs))
  · intro h d hvisit
    refine usable_of_owned ?_
    refine hvisit.invariant (I := Owned (fun t => t.phase.Holding) UnwindPromise) ?_ ?_
    · exact ⟨none, fun _ => id, rfl, pendLedger_new⟩
    · rintro d d' ⟨i, act⟩ htake ih hs
      obtain ⟨s', t', hP, rfl⟩ := Config.step_eq_some.mp hs
      refine (unwind_owner (SoftLock.withAccessUnwind_cases hP) fun n hn => ?_).owned ih
      cases act with
      | op act => exact h d i act n htake hn
      | panicLocked =>
          -- it is not a drain that unwinds here
          rcases hn with hp | hp <;>
            simp [SoftLock.withAccessUnwind, show (d.thread i).phase = _ from hp] at hP

end

/-- Thread 0 unwinds with the queue mutex in hand, and later drains what thread 1 recorded. -/
def wedgedRun : List (Fin 2 × UnwindAct) :=
  [(0, .op .step), (0, .panicLocked), (0, .op .step), (0, .op .step), (0, .op .step),
    (0, .op .step), (1, .op .step), (1, .op (.pend .pendSubmit)), (1, .op (.exit false)),
    (1, .op .step), (0, .op (.exit false)), (0, .op .step), (0, .op .step), (0, .op .step),
    (0, .op .step), (0, .op .step)]

theorem wedgedRun_possible : ∃ c, exec SoftLock.unwindStep freshUnwind wedgedRun = some c :=
  Option.isSome_iff_exists.mp (by decide +kernel)

theorem usable_iff_wedged :
    (∀ d, Visits SoftLock.unwindStep freshUnwind wedgedRun d → Usable d)
      ↔ NeverDrainsPoisoned wedgedRun := by
  obtain ⟨c, hc⟩ := wedgedRun_possible
  exact usable_iff hc

/-- An access can leave the lock taken for good, and the submission it drained nowhere. -/
theorem lock_wedged :
    ¬ ∀ c : Config Poisonable (Fin 2) UnwindPhase,
      Reachable SoftLock.unwindStep freshUnwind c → Usable c := by
  intro h
  obtain ⟨c, hc⟩ := wedgedRun_possible
  have hend : ((exec SoftLock.unwindStep freshUnwind wedgedRun).map fun c =>
      ((c.thread 0).phase.isIdle, (c.thread 1).phase.isIdle, c.shared.lock.locked,
        c.shared.lock.content.hist.pends, c.shared.lock.content.pendingSubmit,
        c.shared.lock.content.queue.items, c.shared.lock.content.drainedItems))
        = some (true, true, true, 1, 0, [], 1) := rfl
  rw [hc, Option.map_some, Option.some.injEq, Prod.mk.injEq, Prod.mk.injEq, Prod.mk.injEq] at hend
  obtain ⟨h0, h1, hlocked, -⟩ := hend
  obtain ⟨i, hi⟩ := (h c ⟨wedgedRun, hc⟩).released hlocked
  rcases Fin.exists_fin_two.mp ⟨i, rfl⟩ with rfl | rfl
  · rw [Phase.isIdle_iff.mp h0] at hi
    exact hi
  · rw [Phase.isIdle_iff.mp h1] at hi
    exact hi

end Hopter
