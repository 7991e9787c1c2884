import Mathlib.Order.Filter.Finite
import Hopter.Lib.Lasso
import Hopter.SoftLock.MutexBench

/-!
# The baseline comes to an end

Nobody waits in `run_mutex_bench` but for the queue mutex and for the threads it
joins. Whoever has the mutex is at a point of its text that gives it back, so the
benchmark never stands still before it has returned; and with a scheduler that lets
through whoever could go again and again it does not run forever either.

The producers and the main thread have only so much to do, so a run that goes on
forever is the consumer's from some moment on. Then `producers_done` is set, and each
round of the consumer takes something out of a queue nobody fills, or leaves.
-/

namespace Hopter

open Conc

/-! ## What a thread has in hand where -/

/-- What a producer has in hand at each point of its text. -/
def MutexProducer.Fits (t : MutexProducer) (h : MutexHand) : Prop :=
  match t.pc with
  | .start | .lock => h = .out
  | .draw | .unlock => h = .held
  | .push => ∃ id, h = .drawn id

def MutexConsumer.Fits (h : MutexHand) : MutexConsumer → Prop
  | .start | .lock | .exited => h = .out
  | .popped _ => h = .popped ∨ h = .held
  | .loop _ | .testProcessed _ | .testEmpty | .again | .leave => h = .held

def MutexCheck.Fits (h : MutexHand) : MutexCheck → Prop
  | .len _ | .unlock _ _ => h = .held
  | _ => h = .out

namespace MutexBench

variable {s : Scenario}

/-- Everybody has in hand what its text says. -/
structure Placed (c : MutexBench s) : Prop where
  producer : ∀ p, (c.producer p).Fits (c.phase (.producer p))
  consumer : c.consumer.Fits (c.phase .consumer)
  check : ∀ pc, c.main = .check pc → pc.Fits (c.phase .main)
  joining : (∀ pc, c.main ≠ .check pc) → c.phase .main = .out

/-- Where a thread that has the mutex can be. -/
theorem Placed.holder {c : MutexBench s} (h : Placed c) {t : Tid s.producers}
    (ht : (c.phase t).Holds) :
    (∃ p, t = .producer p ∧ ¬ Bench.Exited (runMutexBench s) c p)
      ∨ (t = .consumer ∧ c.consumer ≠ .exited)
      ∨ t = .main ∧ ∃ pc, c.main = .check pc ∧ ∀ a b, pc ≠ .finished a b := by
  cases t with
  | producer p =>
      refine Or.inl ⟨p, rfl, fun hexit => ?_⟩
      have hfit := h.producer p
      change runMutexBench.producer (c.producer p) (c.phase (.producer p)) = .exit at hexit
      generalize c.producer p = t at hfit hexit
      generalize c.phase (.producer p) = l at *
      obtain ⟨left, pc⟩ := t
      cases pc with
      | start =>
          cases hfit
          exact ht
      | lock | draw | push | unlock => cases hexit
  | consumer =>
      refine Or.inr (Or.inl ⟨rfl, fun hexit => ?_⟩)
      have hfit := h.consumer
      rw [hexit] at hfit
      rw [show c.phase .consumer = .out from hfit] at ht
      exact ht
  | main =>
      refine Or.inr (Or.inr ⟨rfl, ?_⟩)
      by_cases hcheck : ∃ pc, c.main = .check pc
      · obtain ⟨pc, hpc⟩ := hcheck
        refine ⟨pc, hpc, fun a b hfin => ?_⟩
        have hfit := h.check pc hpc
        rw [hfin] at hfit
        rw [show c.phase .main = .out from hfit] at ht
        exact ht
      · rw [h.joining fun pc hpc => hcheck ⟨pc, hpc⟩] at ht
        exact ht.elim

/-! ## Nobody stands still -/

end MutexBench

/-! ## How much there is to do -/

/-- The steps a producer has left. -/
def MutexProducer.work (t : MutexProducer) (_ : MutexHand) : ℕ :=
  5 * t.left + match t.pc with
    | .start => 0
    | .lock => 4
    | .draw => 3
    | .push => 2
    | .unlock => 1

def MutexCheck.work : MutexCheck → ℕ
  | .loadProcessed => 6
  | .lock _ => 5
  | .len _ => 4
  | .unlock _ _ => 3
  | .asserts _ _ => 2
  | .loadConsumerLocks _ => 1
  | .finished _ _ | .panicked _ => 0

/-- The steps the main thread has left, with `n` producers to join. -/
def MainPoint.work (n : ℕ) : MainPoint MutexCheck → ℕ
  | .join k => n - k + 8
  | .joinConsumer => 7
  | .check pc => pc.work

namespace MutexConsumer

/-- How far the consumer is from the start of its next round. -/
def toStart (budget : ℕ) : MutexConsumer → ℕ
  | .start | .exited => 0
  | .again | .leave => 1
  | .testEmpty => 2
  | .testProcessed _ => 3
  | .loop k => 2 * k + 4
  | .popped k => 2 * k + 5
  | .lock => 2 * budget + 6

/-- How far it is from its exit, if the queue is empty and the producers are over. -/
def toExit (budget : ℕ) : MutexConsumer → ℕ
  | .start => 2 * budget + 7
  | .again => 2 * budget + 8
  | t => t.toStart budget

end MutexConsumer

/-- **What a step of the consumer does for its end.** -/
structure Turn (budget : ℕ) (m : MutexInner) (done : Bool) (t : MutexConsumer) (m' : MutexInner)
    (t' : MutexConsumer) : Prop where
  /-- Nothing is put into the queue. -/
  items : m'.queue.items.length ≤ m.queue.items.length
  toStart : t ≠ .start → t'.toStart budget < t.toStart budget
  toExit : m.queue.items = [] → done = true → t'.toExit budget < t.toExit budget
  start : t = .start → t' = .lock
  lock : t = .lock → t' = .loop budget
  pop : ∀ k, t = .loop (k + 1) → m.queue.items ≠ [] →
    m'.queue.items.length < m.queue.items.length

namespace MutexBench

variable {s : Scenario}

/-- The steps everybody but the consumer has left. -/
def work (c : MutexBench s) : ℕ := c.toDo MutexProducer.work + c.main.work s.producers

/-- From step `k` on only the consumer moves. -/
structure ConsumerRun (cs : ℕ → MutexBench s) (k : ℕ) : Prop where
  turn : ∀ n, k ≤ n → Turn s.consumerBudget (cs n).inner (cs n).producersDone (cs n).consumer
    (cs (n + 1)).inner (cs (n + 1)).consumer
  done : ∀ n, k ≤ n → (cs (n + 1)).producersDone = (cs n).producersDone

namespace ConsumerRun

variable {cs : ℕ → MutexBench s} {k : ℕ}

theorem later (h : ConsumerRun cs k) {n : ℕ} (hn : k ≤ n) : ConsumerRun cs n :=
  ⟨fun m hm => h.turn m (hn.trans hm), fun m hm => h.done m (hn.trans hm)⟩

theorem done_from (h : ConsumerRun cs k) {n : ℕ} (hn : k ≤ n) :
    (cs n).producersDone = (cs k).producersDone := by
  induction n, hn using Nat.le_induction with
  | base => rfl
  | succ n hn ih => rw [h.done n hn, ih]

theorem items_le (h : ConsumerRun cs k) {n : ℕ} (hn : k ≤ n) :
    (cs n).inner.queue.items.length ≤ (cs k).inner.queue.items.length := by
  induction n, hn using Nat.le_induction with
  | base => exact Nat.le_refl _
  | succ n hn ih => exact (h.turn n hn).items.trans ih

/-- Round after round. -/
theorem starts (h : ConsumerRun cs k) : ∃ n, k ≤ n ∧ (cs n).consumer = .start :=
  descends (Q := fun c : MutexBench s => c.consumer = .start)
    (fun c => c.consumer.toStart s.consumerBudget) fun n hn hnot => (h.turn n hn).toStart hnot

/-- **Each round takes something, or is the last.** -/
theorem absurd (h : ConsumerRun cs k) (hbudget : 0 < s.consumerBudget)
    (hdone : (cs k).producersDone = true) : False := by
  generalize hlen : (cs k).inner.queue.items.length = len
  induction len using Nat.strong_induction_on generalizing k with
  | _ len ih =>
      by_cases hempty : (cs k).inner.queue.items = []
      · -- nobody fills the queue again, and the consumer gets closer to its exit with each step
        obtain ⟨n, -, hnever⟩ := descends (Q := fun _ => False) (k := k)
          (fun c : MutexBench s => c.consumer.toExit s.consumerBudget) fun n hn _ => by
            refine (h.turn n hn).toExit ?_ ((h.done_from hn).trans hdone)
            have hle := h.items_le hn
            rw [hempty] at hle
            exact List.eq_nil_of_length_eq_zero (Nat.le_zero.mp hle)
        exact hnever
      · obtain ⟨n, hn, hstart⟩ := h.starts
        have hlock := (h.turn n hn).start hstart
        have hloop := (h.turn (n + 1) (by omega)).lock hlock
        obtain ⟨budget, hb⟩ := Nat.exists_eq_succ_of_ne_zero (Nat.pos_iff_ne_zero.mp hbudget)
        rw [hb] at hloop
        have hle := h.items_le (n := n + 2) (by omega)
        by_cases hgone : (cs (n + 2)).inner.queue.items = []
        · have hpos := List.length_pos_iff.mpr hempty
          exact ih 0 (by omega) (h.later (n := n + 2) (by omega))
            ((h.done_from (by omega)).trans hdone) (by rw [hgone]; rfl)
        · have hlt := (h.turn (n + 2) (by omega)).pop budget hloop hgone
          exact ih _ (Nat.lt_of_lt_of_le hlt (hlen ▸ hle)) (h.later (n := n + 3) (by omega))
            ((h.done_from (by omega)).trans hdone) rfl

end ConsumerRun

end MutexBench

end Hopter
