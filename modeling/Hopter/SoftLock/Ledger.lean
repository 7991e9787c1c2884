import Hopter.Lib.TicketQueue
import Hopter.SoftLock.Exclusion

/-!
# Accounting for every submission

Between two atomic steps the owner of the soft lock may have things in hand: a
count taken out of `pending_submit`, an id it drew and has not pushed, an item
it popped and has not counted. `InHand` is that, read off the point the owner is
at, and the two ledgers say that nothing is anywhere else.

`PendLedger` follows what went through `pending_submit`; `QueueLedger` follows
the ids. Each is checked method by method, and `softLock_owned` does the rest.
-/

namespace Hopter

open Conc

/-- What the owner has in hand at a point of the content's code. -/
structure InHand where
  /-- It holds the queue mutex. -/
  held : Bool := false
  /-- An id drawn and not yet pushed. -/
  drawn : Option Nat := none
  /-- Submissions in hand that came by `submit_direct`. -/
  direct : Nat := 0
  /-- Pended submissions taken and not yet pushed. -/
  owed : Nat := 0
  /-- Pended submissions taken and not yet added to `drained_items`. -/
  unlogged : Nat := 0
  /-- Direct submissions not yet added to `direct_items`. -/
  undirect : Nat := 0
  /-- Items popped and not yet added to `processed`. -/
  uncounted : Nat := 0
  drawn_le : drawn.toList.length ≤ direct + owed := by simp

def SubmitDirect.inHand : SubmitDirect → InHand
  | .draw => {}
  | .lock id => { drawn := some id, direct := 1, undirect := 1 }
  | .push id => { held := true, drawn := some id, direct := 1, undirect := 1 }
  | .count => { held := true, undirect := 1 }
  | .unlock => { held := true }

def ProcessSome.inHand : ProcessSome → InHand
  | .lock _ => {}
  | .loop _ _ => { held := true }
  | .count _ _ => { held := true, uncounted := 1 }
  | .unlock _ => { held := true }

def QueueLen.inHand : QueueLen → InHand
  | .lock => {}
  | .read => { held := true }
  | .unlock _ => { held := true }

def RunPended.inHand : RunPended → InHand
  | .swap => {}
  | .batches n => { owed := n, unlogged := n }
  | .items n => { owed := n, unlogged := n }
  | .lock n => { owed := n }
  | .loop k => { held := true, owed := k }
  | .push k id => { held := true, drawn := some id, owed := k + 1 }

def FullClosure.inHand : FullClosure → InHand
  | .ready _ => {}
  | .submitDirect pc => pc.inHand
  | .processSome pc => pc.inHand
  | .queueLen pc => pc.inHand
  | .runPendedOp pc => pc.inHand

/-- What the owner has in hand, by the code it is in. -/
def Use.inHand : Use DemoInner → InHand
  | .none => {}
  | .full a => FullClosure.inHand a
  | .run r => RunPended.inHand r

/-- Every item the owner has taken from somewhere and not yet put where it goes. -/
def InHand.items (h : InHand) : Nat := h.direct + h.owed + h.uncounted

/-- Where the submissions recorded by `pend_submit` are. -/
structure PendLedger (d : DemoInner) (h : InHand) : Prop where
  recorded : d.hist.pends = d.pendingSubmit + d.hist.drained + h.owed
  logged : d.hist.pends = d.pendingSubmit + d.drainedItems + h.unlogged

/-- Where the ids are. -/
structure QueueLedger (d : DemoInner) (h : InHand) : Prop where
  held : d.queue.held = h.held
  /-- What was popped, followed by the queue, is `1, 2, 3, …`. -/
  ids : d.hist.popped ++ d.queue.items
    = List.range' 1 (d.hist.popped.length + d.queue.items.length)
  drawn : ∀ id, h.drawn = some id → id = d.hist.popped.length + d.queue.items.length + 1
  next : d.nextId = d.hist.popped.length + d.queue.items.length + 1 + h.drawn.toList.length
  processed : d.processed + h.uncounted = d.hist.popped.length
  direct : d.hist.directs = d.directItems + h.undirect
  pushed : d.hist.directs + d.hist.drained
    = d.hist.popped.length + d.queue.items.length + h.direct

theorem pendLedger_new : PendLedger DemoInner.new {} := ⟨rfl, rfl⟩

theorem queueLedger_new : QueueLedger DemoInner.new {} where
  held := rfl
  ids := rfl
  drawn := by intro id h; cases h
  next := rfl
  processed := rfl
  direct := rfl
  pushed := rfl

/-! ## The pended submissions, method by method -/

theorem pendLedger_submitDirect {d : DemoInner} {pc : SubmitDirect}
    (h : PendLedger d pc.inHand) :
    PendLedger (InnerFullAccessor.submitDirect d pc).1
      ((InnerFullAccessor.submitDirect d pc).2.elim {} SubmitDirect.inHand) := by
  obtain ⟨h1, h2⟩ := h
  cases pc with
  | lock id =>
      simp only [InnerFullAccessor.submitDirect]
      split <;> exact ⟨h1, h2⟩
  | draw | push id | count | unlock => exact ⟨h1, h2⟩

theorem pendLedger_processSome {d : DemoInner} {pc : ProcessSome}
    (h : PendLedger d pc.inHand) :
    PendLedger (InnerFullAccessor.processSome d pc).1
      ((InnerFullAccessor.processSome d pc).2.elim ProcessSome.inHand fun _ => {}) := by
  obtain ⟨h1, h2⟩ := h
  cases pc with
  | lock budget =>
      simp only [InnerFullAccessor.processSome]
      split <;> exact ⟨h1, h2⟩
  | loop budget n =>
      simp only [InnerFullAccessor.processSome]
      split
      · split <;> exact ⟨h1, h2⟩
      · exact ⟨h1, h2⟩
  | count budget n | unlock n => exact ⟨h1, h2⟩

theorem pendLedger_queueLen {d : DemoInner} {pc : QueueLen}
    (h : PendLedger d pc.inHand) :
    PendLedger (InnerFullAccessor.queueLen d pc).1
      ((InnerFullAccessor.queueLen d pc).2.elim QueueLen.inHand fun _ => {}) := by
  obtain ⟨h1, h2⟩ := h
  cases pc with
  | lock =>
      simp only [InnerFullAccessor.queueLen]
      split <;> exact ⟨h1, h2⟩
  | read | unlock len => exact ⟨h1, h2⟩

/-- A drain moves what it took from `pending_submit` into the queue, one id at a time. -/
theorem pendLedger_runPendedOp {d : DemoInner} {pc : RunPended}
    (h : PendLedger d pc.inHand) :
    PendLedger (InnerFullAccessor.runPendedOp d pc).1
      ((InnerFullAccessor.runPendedOp d pc).2.elim {} RunPended.inHand) := by
  obtain ⟨h1, h2⟩ := h
  simp only [RunPended.inHand] at h1 h2
  cases pc with
  | swap =>
      simp only [InnerFullAccessor.runPendedOp]
      split
      · constructor <;> simp_all
      · constructor <;> simp only [Option.elim_some, RunPended.inHand] at h1 h2 ⊢ <;> omega
  | batches n => exact ⟨h1, h2⟩
  | items n =>
      constructor <;>
        simp only [InnerFullAccessor.runPendedOp, Option.elim_some, RunPended.inHand] at h1 h2 ⊢ <;>
        omega
  | lock n =>
      simp only [InnerFullAccessor.runPendedOp]
      split <;> exact ⟨h1, h2⟩
  | loop k =>
      cases k with
      | zero => exact ⟨h1, h2⟩
      | succ k => exact ⟨h1, h2⟩
  | push k id =>
      constructor <;>
        simp only [InnerFullAccessor.runPendedOp, DemoInner.pushBack, Option.elim_some,
          RunPended.inHand] at h1 h2 ⊢ <;>
        omega

/-! ## The ids, method by method -/

theorem QueueLedger.consecutive {d : DemoInner} {h : InHand} (hq : QueueLedger d h) :
    Consecutive d.hist.popped d.queue.items := hq.ids

/-- The drawn id goes to the back of the queue, where it belongs. -/
theorem QueueLedger.pushBack {d : DemoInner} {h : InHand}
    (hq : QueueLedger d h) {id : Nat} (hid : h.drawn = some id) :
    Consecutive (d.pushBack id).hist.popped (d.pushBack id).queue.items :=
  hq.consecutive.push (hq.drawn id hid)

theorem queueLedger_submitDirect {d : DemoInner} {pc : SubmitDirect}
    (h : QueueLedger d pc.inHand) :
    QueueLedger (InnerFullAccessor.submitDirect d pc).1
      ((InnerFullAccessor.submitDirect d pc).2.elim {} SubmitDirect.inHand) := by
  cases pc with
  | draw =>
      obtain ⟨h1, h2, h3, h4, h5, h6, h7⟩ := h
      simp only [SubmitDirect.inHand] at h1 h4 h5 h6 h7
      refine ⟨h1, h2, ?_, ?_, h5, ?_, ?_⟩ <;>
        simp_all [InnerFullAccessor.submitDirect, SubmitDirect.inHand]
      omega
  | lock id =>
      simp only [InnerFullAccessor.submitDirect]
      split
      · exact h
      · exact ⟨rfl, h.ids, h.drawn, h.next, h.processed, h.direct, h.pushed⟩
  | push id =>
      have hids := h.pushBack (show _ = some id from rfl)
      obtain ⟨h1, h2, h3, h4, h5, h6, h7⟩ := h
      refine ⟨h1, hids, ?_, ?_, h5, h6, ?_⟩ <;>
        simp_all [InnerFullAccessor.submitDirect, SubmitDirect.inHand, DemoInner.pushBack] <;> omega
  | count =>
      refine ⟨h.held, h.ids, h.drawn, h.next, h.processed, ?_, h.pushed⟩
      exact h.direct
  | unlock => exact ⟨rfl, h.ids, h.drawn, h.next, h.processed, h.direct, h.pushed⟩

theorem queueLedger_processSome {d : DemoInner} {pc : ProcessSome}
    (h : QueueLedger d pc.inHand) :
    QueueLedger (InnerFullAccessor.processSome d pc).1
      ((InnerFullAccessor.processSome d pc).2.elim ProcessSome.inHand fun _ => {}) := by
  cases pc with
  | lock budget =>
      simp only [InnerFullAccessor.processSome]
      split
      · exact h
      · exact ⟨rfl, h.ids, h.drawn, h.next, h.processed, h.direct, h.pushed⟩
  | loop budget n =>
      simp only [InnerFullAccessor.processSome]
      split
      · split
        · rename_i id rest hq
          -- the front of the queue becomes the last popped
          obtain ⟨h1, h2, h3, h4, h5, h6, h7⟩ := h
          rw [hq] at h2 h3 h4 h7
          simp only [List.length_cons] at h3 h4 h7
          refine ⟨h1, Consecutive.pop h2, ?_, ?_, ?_, h6, ?_⟩ <;>
            simp_all [ProcessSome.inHand] <;> omega
        · exact h
      · exact h
  | count budget n =>
      obtain ⟨h1, h2, h3, h4, h5, h6, h7⟩ := h
      refine ⟨h1, h2, h3, h4, ?_, h6, h7⟩
      simp only [InnerFullAccessor.processSome, Sum.elim_inl, ProcessSome.inHand] at h5 ⊢
      omega
  | unlock n => exact ⟨rfl, h.ids, h.drawn, h.next, h.processed, h.direct, h.pushed⟩

theorem queueLedger_queueLen {d : DemoInner} {pc : QueueLen}
    (h : QueueLedger d pc.inHand) :
    QueueLedger (InnerFullAccessor.queueLen d pc).1
      ((InnerFullAccessor.queueLen d pc).2.elim QueueLen.inHand fun _ => {}) := by
  cases pc with
  | lock =>
      simp only [InnerFullAccessor.queueLen]
      split
      · exact h
      · exact ⟨rfl, h.ids, h.drawn, h.next, h.processed, h.direct, h.pushed⟩
  | read => exact h
  | unlock len => exact ⟨rfl, h.ids, h.drawn, h.next, h.processed, h.direct, h.pushed⟩

theorem queueLedger_runPendedOp {d : DemoInner} {pc : RunPended}
    (h : QueueLedger d pc.inHand) :
    QueueLedger (InnerFullAccessor.runPendedOp d pc).1
      ((InnerFullAccessor.runPendedOp d pc).2.elim {} RunPended.inHand) := by
  cases pc with
  | swap =>
      simp only [InnerFullAccessor.runPendedOp]
      split <;> exact ⟨h.held, h.ids, h.drawn, h.next, h.processed, h.direct, h.pushed⟩
  | batches n | items n =>
      exact ⟨h.held, h.ids, h.drawn, h.next, h.processed, h.direct, h.pushed⟩
  | lock n =>
      simp only [InnerFullAccessor.runPendedOp]
      split
      · exact h
      · exact ⟨rfl, h.ids, h.drawn, h.next, h.processed, h.direct, h.pushed⟩
  | loop k =>
      obtain ⟨h1, h2, h3, h4, h5, h6, h7⟩ := h
      cases k with
      | zero => exact ⟨rfl, h2, h3, h4, h5, h6, h7⟩
      | succ k =>
          refine ⟨h1, h2, ?_, ?_, h5, h6, h7⟩ <;>
            simp_all [InnerFullAccessor.runPendedOp, RunPended.inHand]
  | push k id =>
      have hids := h.pushBack (show _ = some id from rfl)
      obtain ⟨h1, h2, h3, h4, h5, h6, h7⟩ := h
      refine ⟨h1, hids, ?_, ?_, h5, h6, ?_⟩ <;>
        simp_all [InnerFullAccessor.runPendedOp, RunPended.inHand, DemoInner.pushBack] <;> omega

/-! ## Over whole runs -/

/-- An account that every method keeps is kept by all content code. -/
theorem contentInv_of_methods {L : DemoInner → InHand → Prop}
    (submit : ∀ {d pc}, L d (SubmitDirect.inHand pc) →
      L (InnerFullAccessor.submitDirect d pc).1
        ((InnerFullAccessor.submitDirect d pc).2.elim {} SubmitDirect.inHand))
    (process : ∀ {d pc}, L d (ProcessSome.inHand pc) →
      L (InnerFullAccessor.processSome d pc).1
        ((InnerFullAccessor.processSome d pc).2.elim ProcessSome.inHand fun _ => {}))
    (len : ∀ {d pc}, L d (QueueLen.inHand pc) →
      L (InnerFullAccessor.queueLen d pc).1
        ((InnerFullAccessor.queueLen d pc).2.elim QueueLen.inHand fun _ => {}))
    (drain : ∀ {d pc}, L d (RunPended.inHand pc) →
      L (InnerFullAccessor.runPendedOp d pc).1
        ((InnerFullAccessor.runPendedOp d pc).2.elim {} RunPended.inHand))
    (entries : ∀ {d h n}, L d h → L { d with fullEntries := n } h)
    (pend : ∀ {d h a k d' a'}, L d h → PendClosure.step d a k = some (d', a') → L d' h) :
    ContentInv (T := DemoInner) fun d u => L d u.inHand where
  enter := id
  full := by
    intro d a k d' a' h hs
    have hs : FullClosure.step d a k = some (d', a') := hs
    have h : L d (FullClosure.inHand a) := h
    show L d' (FullClosure.inHand a')
    cases a with
    | ready ret =>
        cases k <;>
          simp only [FullClosure.step, Option.some.injEq, Prod.mk.injEq, reduceCtorEq] at hs
        case addFullEntries => obtain ⟨rfl, rfl⟩ := hs; exact entries h
        all_goals obtain ⟨rfl, rfl⟩ := hs; exact h
    | submitDirect pc =>
        have hm := @submit d pc h
        cases k <;> simp only [FullClosure.step, reduceCtorEq] at hs
        split at hs <;> rename_i he <;> cases hs <;> rw [he] at hm <;> exact hm
    | processSome pc =>
        have hm := @process d pc h
        cases k <;> simp only [FullClosure.step, reduceCtorEq] at hs
        split at hs <;> rename_i he <;> cases hs <;> rw [he] at hm <;> exact hm
    | queueLen pc =>
        have hm := @len d pc h
        cases k <;> simp only [FullClosure.step, reduceCtorEq] at hs
        split at hs <;> rename_i he <;> cases hs <;> rw [he] at hm <;> exact hm
    | runPendedOp pc =>
        have hm := @drain d pc h
        cases k <;> simp only [FullClosure.step, reduceCtorEq] at hs
        split at hs <;> rename_i he <;> cases hs <;> rw [he] at hm <;> exact hm
  exit := by
    intro d a h hr
    have hr : FullClosure.isReady a = true := hr
    cases a <;> simp only [FullClosure.isReady, Bool.false_eq_true] at hr
    exact h
  call := id
  run := by
    intro d r d' r' h hs
    have hm := @drain d r h
    have hs : InnerFullAccessor.runPendedOp d r = (d', some r') := hs
    rw [hs] at hm
    exact hm
  ret := by
    intro d r d' h hs
    have hm := @drain d r h
    have hs : InnerFullAccessor.runPendedOp d r = (d', none) := hs
    rw [hs] at hm
    exact hm
  pend := by
    intro d a k d' a' u h hs
    exact pend h hs

theorem pendLedger_pend {d d' : DemoInner} {h : InHand} {a a' : PendClosure} {k : PendCall}
    (hl : PendLedger d h) (hs : a.step d k = some (d', a')) : PendLedger d' h := by
  obtain ⟨h1, h2⟩ := hl
  cases k with
  | pendSubmit =>
      cases hs
      constructor <;> simp only [InnerPendAccessor.pendSubmit] <;> omega
  | addPendEntries =>
      cases hs
      exact ⟨h1, h2⟩

theorem queueLedger_pend {d d' : DemoInner} {h : InHand} {a a' : PendClosure} {k : PendCall}
    (hl : QueueLedger d h) (hs : a.step d k = some (d', a')) : QueueLedger d' h := by
  cases k with
  | pendSubmit | addPendEntries =>
      cases hs
      exact ⟨hl.held, hl.ids, hl.drawn, hl.next, hl.processed, hl.direct, hl.pushed⟩

theorem contentInv_pendLedger :
    ContentInv (T := DemoInner) fun d u => PendLedger d u.inHand :=
  contentInv_of_methods pendLedger_submitDirect pendLedger_processSome pendLedger_queueLen
    pendLedger_runPendedOp (fun h => ⟨h.recorded, h.logged⟩) pendLedger_pend

theorem contentInv_queueLedger :
    ContentInv (T := DemoInner) fun d u => QueueLedger d u.inHand :=
  contentInv_of_methods queueLedger_submitDirect queueLedger_processSome queueLedger_queueLen
    queueLedger_runPendedOp
    (fun h => ⟨h.held, h.ids, h.drawn, h.next, h.processed, h.direct, h.pushed⟩) queueLedger_pend

theorem ContentInv.and {T : Type} [AllowPendOp T] {K L : T → Use T → Prop}
    (hK : ContentInv K) (hL : ContentInv L) : ContentInv fun d u => K d u ∧ L d u where
  enter := fun h => ⟨hK.enter h.1, hL.enter h.2⟩
  full := fun h hs => ⟨hK.full h.1 hs, hL.full h.2 hs⟩
  exit := fun h hr => ⟨hK.exit h.1 hr, hL.exit h.2 hr⟩
  call := fun h => ⟨hK.call h.1, hL.call h.2⟩
  run := fun h hs => ⟨hK.run h.1 hs, hL.run h.2 hs⟩
  ret := fun h hs => ⟨hK.ret h.1 hs, hL.ret h.2 hs⟩
  pend := fun h hs => ⟨hK.pend h.1 hs, hL.pend h.2 hs⟩

/-- Both ledgers. -/
def Ledger (d : DemoInner) (u : Use DemoInner) : Prop :=
  PendLedger d u.inHand ∧ QueueLedger d u.inHand

/-- Every reachable configuration of the demo has one owner at most, and balanced books. -/
theorem demo_owned {ι : Type} [DecidableEq ι] {c : Config (SoftLock DemoInner) ι DemoPhase}
    (h : Reachable SoftLock.step (fresh DemoInner.new) c) :
    Owned Phase.Holding (Promise Ledger) c :=
  softLock_owned (contentInv_pendLedger.and contentInv_queueLedger)
    ⟨pendLedger_new, queueLedger_new⟩ h

/-- Nothing is lost: every submission is processed, queued, recorded, or in the owner's hands. -/
theorem Ledger.total {d : DemoInner} {u : Use DemoInner} (h : Ledger d u) :
    d.hist.directs + d.hist.pends
      = d.processed + d.queue.items.length + d.pendingSubmit + u.inHand.items := by
  obtain ⟨⟨h1, -⟩, h2⟩ := h
  have := h2.processed
  have := h2.pushed
  simp only [InHand.items]
  omega

/-- No counter of the accounting wraps before there are `2 ^ 64` submissions. -/
def CountersFit (d : DemoInner) : Prop :=
  d.pendingSubmit < 2 ^ 64 ∧ d.processed < 2 ^ 64 ∧ d.drainedItems < 2 ^ 64
    ∧ d.directItems < 2 ^ 64 ∧ d.nextId ≤ 2 ^ 64

theorem Ledger.counters_fit {d : DemoInner} {u : Use DemoInner} (h : Ledger d u)
    (hlt : d.hist.directs + d.hist.pends < 2 ^ 64) : CountersFit d := by
  obtain ⟨⟨h1, h2⟩, h3⟩ := h
  have := u.inHand.drawn_le
  have := h3.processed
  have := h3.pushed
  have := h3.next
  have := h3.direct
  refine ⟨?_, ?_, ?_, ?_, ?_⟩ <;> omega

/--
**Conservation and id discipline.**

`o` is the current holder. Every submission is processed, in the queue, in
`pending_submit` or in the holder's hands; ids were popped as `1, 2, 3, …`, the
queue holds the ones that follow, and `next_id` is the one after those, or the
one after the id the holder has just drawn.
-/
theorem submissions_conserved {ι : Type} [DecidableEq ι]
    {c : Config (SoftLock DemoInner) ι DemoPhase}
    (h : Reachable SoftLock.step (fresh DemoInner.new) c)
    (hlt : c.shared.content.hist.directs + c.shared.content.hist.pends < 2 ^ 64) :
    ∃ o, Owner Phase.Holding c.thread o ∧
      let d := c.shared.content
      let hand := (useOf o).inHand
      d.hist.directs + d.hist.pends
          = d.processed + d.queue.items.length + d.pendingSubmit + hand.items
        ∧ d.hist.popped = List.range' 1 d.hist.popped.length
        ∧ d.queue.items = List.range' (d.hist.popped.length + 1) d.queue.items.length
        ∧ (∀ id, hand.drawn = some id → id = d.hist.popped.length + d.queue.items.length + 1)
        ∧ d.nextId = d.hist.popped.length + d.queue.items.length + 1 + hand.drawn.toList.length
        ∧ d.hist.popped.length = d.processed + hand.uncounted
        ∧ d.hist.pends = d.pendingSubmit + (d.drainedItems + hand.unlogged)
        ∧ d.hist.directs = d.directItems + hand.undirect
        ∧ CountersFit d := by
  obtain ⟨o, ho, -, hled⟩ := demo_owned h
  obtain ⟨hpopped, hqueue⟩ := hled.2.consecutive.split
  refine ⟨o, ho, hled.total, hpopped, hqueue, hled.2.drawn, hled.2.next, hled.2.processed.symm, ?_,
    hled.2.direct, hled.counters_fit hlt⟩
  rw [← Nat.add_assoc]
  exact hled.1.logged

/-- The books of `sampleRun`, which stops with an id drawn and not pushed. -/
theorem submissions_conserved_sample :
    ∃ c, exec SoftLock.step (fresh DemoInner.new) sampleRun = some c
      ∧ c.shared.content.nextId = 3 ∧
      ∃ o, Owner Phase.Holding c.thread o
        ∧ c.shared.content.hist.directs + c.shared.content.hist.pends
          = c.shared.content.processed + c.shared.content.queue.items.length
            + c.shared.content.pendingSubmit + (useOf o).inHand.items := by
  obtain ⟨c, hc⟩ := sampleRun_possible
  have hbooks : ((exec SoftLock.step (fresh DemoInner.new) sampleRun).map fun c =>
      (c.shared.content.nextId, c.shared.content.hist.directs + c.shared.content.hist.pends))
        = some (3, 2) := by decide +kernel
  rw [hc, Option.map_some, Option.some.injEq, Prod.mk.injEq] at hbooks
  obtain ⟨o, ho, htotal, -⟩ := submissions_conserved ⟨sampleRun, hc⟩ (by omega)
  exact ⟨c, hc, hbooks.1, o, ho, htotal⟩

end Hopter
