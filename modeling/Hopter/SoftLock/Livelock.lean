import Hopter.Lib.Lasso
import Hopter.SoftLock.DrainLoop
import Hopter.SoftLock.SoftBenchEnd

/-!
# `run_softlock_bench` may run forever

The drain loop of a guard with the lock has no bound of its own: each time around it may
find the flag up again. The consumer raises it whenever it is turned away, and it comes
back as often as it likes.

So there is a schedule that goes around forever. The first producer is in its `drop`, the
consumer is turned away before the swap and raises the flag behind it, before the lock is
let go. Everybody who could move does so again and again; the other producers are over,
and the main thread waits for the first one.
-/

namespace Hopter

open Conc

/-! ## A producer on its own -/

/-- Steps of a producer's text, one after the other. -/
abbrev ProducerLeads (x y : SoftLock DemoInner × DemoPhase × SoftProducer) : Prop :=
  Relation.ReflTransGen (fun x y =>
    (runSoftlockBench.producer x.2.2 x.2.1).take SoftLock.withAccess x.1 false x.2.1 = some y) x y

theorem ProducerLeads.head {x y z : SoftLock DemoInner × DemoPhase × SoftProducer}
    (h : (runSoftlockBench.producer x.2.2 x.2.1).take SoftLock.withAccess x.1 false x.2.1 = some y)
    (hz : ProducerLeads y z) : ProducerLeads x z :=
  Relation.ReflTransGen.head h hz

/-- After one more round of a producer with Full access. -/
def DemoInner.submitted (d : DemoInner) : DemoInner :=
  { d with
    fullEntries := d.fullEntries + 1
    nextId := d.nextId + 1
    queue := { items := d.queue.items ++ [d.nextId], held := false }
    directItems := d.directItems + 1
    hist := { d.hist with directs := d.hist.directs + 1 } }

namespace SoftBench

variable {s : Scenario}

/-- Producer `p` is at `q` and the consumer at `r`, everybody else is outside, and the main thread
waits for the first producer. -/
def duel (producer : Fin s.producers → SoftProducer) (p : Fin s.producers) (l : SoftLock DemoInner)
    (q r : DemoPhase) (t : SoftConsumer) : SoftBench s where
  inner := l
  producersDone := false
  phase := Function.update (Function.update (fun _ => .idle) (.producer p) q) .consumer r
  producer := producer
  consumer := t
  main := .join 0

theorem duel_phase (producer : Fin s.producers → SoftProducer) (p : Fin s.producers)
    (l : SoftLock DemoInner) (q r : DemoPhase) (t : SoftConsumer) :
    (duel producer p l q r t).phase (.producer p) = q := by
  unfold duel
  dsimp only
  rw [Function.update_of_ne (by simp), Function.update_self]

/-- Producer `p` is in its `drop`. Where it has brought the flag down, the consumer has been turned
away and will raise it, and the producer still has the lock. -/
def Caught (producer : Fin s.producers → SoftProducer) (p : Fin s.producers) (c : SoftBench s) :
    Prop :=
  ∃ l q r t, c = duel producer p l q r t ∧ q.Dropping
    ∧ (l.pending = false → r.PendOnly ∧ q.Holding)

/-- Nobody but the two can move. -/
theorem Caught.others {producer : Fin s.producers → SoftProducer} {p : Fin s.producers}
    (hp : p.val = 0) (hover : ∀ j, j ≠ p → producer j = ⟨0, .leave⟩) {c : SoftBench s}
    (h : Caught producer p c) {t : Tid s.producers} (hown : t ≠ .producer p)
    (hcons : t ≠ .consumer) : step s c t = none := by
  obtain ⟨l, q, r, k, rfl, hdrop, -⟩ := h
  cases t with
  | producer j =>
      have hj : j ≠ p := by
        rintro rfl
        exact hown rfl
      have hphase : (duel producer p l q r k).phase (.producer j) = .idle := by
        unfold duel
        dsimp only
        rw [Function.update_of_ne hcons, Function.update_of_ne hown]
      simp only [Bench.step, hphase]
      change ((runSoftlockBench.producer (producer j) .idle).take _ _ _ _).map _ = none
      rw [hover j hj]
      rfl
  | consumer => exact absurd rfl hcons
  | main =>
      have hpos : 0 < s.producers := Nat.lt_of_le_of_lt (Nat.zero_le _) p.isLt
      have hfirst : p = ⟨0, hpos⟩ := Fin.ext hp
      have hgo : Bench.joined (runSoftlockBench.producer (producer p) q) = false := by
        cases q <;> first | rfl | exact hdrop.elim
      show (if h : 0 < s.producers then _ else _) = none
      rw [dif_pos hpos, ← hfirst, duel_phase]
      change (if Bench.joined (runSoftlockBench.producer (producer p) q) = true then _ else _)
        = none
      rw [hgo]
      rfl

end SoftBench

end Hopter
