import Mathlib.Data.List.Range
import Hopter.Lib.Run

/-!
# A queue that numbers its items

`append` puts the next number at the back, `pop` takes the front. Seen through
what was popped and what is left, such a queue is in one state only for every
pair of lists whose concatenation is `1, 2, 3, …`; so an implementation that
keeps the two lists consecutive and moves by one push or one pop at a time
simulates it.
-/

namespace Conc

/-- What was popped, followed by what is left, is `1, 2, 3, …`. -/
def Consecutive (popped items : List ℕ) : Prop :=
  popped ++ items = List.range' 1 (popped.length + items.length)

theorem Consecutive.push {popped items : List ℕ} (h : Consecutive popped items) {id : ℕ}
    (hid : id = popped.length + items.length + 1) : Consecutive popped (items ++ [id]) := by
  unfold Consecutive at h ⊢
  rw [List.length_append, List.length_singleton, ← List.append_assoc, h, ← Nat.add_assoc,
    List.range'_1_concat, hid, Nat.add_comm 1]

/-- The last item is the number it has to be. -/
theorem Consecutive.last {popped items : List ℕ} {id : ℕ}
    (h : Consecutive popped (items ++ [id])) : id = popped.length + items.length + 1 := by
  unfold Consecutive at h
  rw [List.length_append, List.length_singleton, ← List.append_assoc, ← Nat.add_assoc,
    List.range'_1_concat] at h
  have hlast := (List.append_inj' h rfl).2
  rw [List.cons.injEq] at hlast
  omega

theorem Consecutive.pop {popped items : List ℕ} {id : ℕ}
    (h : Consecutive popped (id :: items)) : Consecutive (popped ++ [id]) items := by
  unfold Consecutive at h ⊢
  rw [List.length_cons] at h
  rw [List.append_assoc, List.singleton_append, h, List.length_append, List.length_singleton]
  congr 1
  omega

/-- What was popped is `1, 2, …`, and the rest goes on from there. -/
theorem Consecutive.split {popped items : List ℕ} (h : Consecutive popped items) :
    popped = List.range' 1 popped.length
      ∧ items = List.range' (popped.length + 1) items.length := by
  unfold Consecutive at h
  rw [← List.range'_append_1, Nat.add_comm 1] at h
  exact List.append_inj h (by rw [List.length_range'])

/-! ## The queue -/

structure TicketQueue where
  queue : List ℕ
  nextId : ℕ
  processed : ℕ

inductive TicketOp where
  | append
  | pop
  deriving DecidableEq

namespace TicketQueue

def new : TicketQueue := ⟨[], 1, 0⟩

def step (q : TicketQueue) : TicketOp → Option TicketQueue
  | .append => some { q with queue := q.queue ++ [q.nextId], nextId := q.nextId + 1 }
  | .pop =>
      match q.queue with
      | [] => none
      | _ :: rest => some { q with queue := rest, processed := q.processed + 1 }

/-- A run appends as often as ids were drawn, and pops as often as items were processed. -/
theorem exec_count {ops : List TicketOp} {q : TicketQueue} (h : exec step new ops = some q) :
    q.nextId = ops.count .append + 1 ∧ q.processed = ops.count .pop := by
  induction ops using List.reverseRecOn generalizing q with
  | nil =>
      cases h
      exact ⟨rfl, rfl⟩
  | append_singleton ops op ih =>
      obtain ⟨q', hq', hs⟩ := exec_concat.mp h
      obtain ⟨hnext, hproc⟩ := ih hq'
      rw [List.count_append, List.count_append]
      cases op with
      | append =>
          cases hs
          exact ⟨congrArg (· + 1) hnext, hproc⟩
      | pop =>
          unfold step at hs
          dsimp only at hs
          split at hs <;> cases hs
          exact ⟨hnext, congrArg (· + 1) hproc⟩

/-- The queue, seen from what was popped and what is left. -/
def of (popped items : List ℕ) : TicketQueue :=
  ⟨items, popped.length + items.length + 1, popped.length⟩

end TicketQueue

/-- Nothing moved, or one item came in, or one went out. -/
inductive TicketMove (popped items : List ℕ) : List ℕ → List ℕ → Prop where
  | stay : TicketMove popped items popped items
  | push (id : ℕ) : TicketMove popped items popped (items ++ [id])
  | pop (id : ℕ) (rest : List ℕ) : items = id :: rest →
      TicketMove popped items (popped ++ [id]) rest

/-- **The simulation rule.** A move that leaves the items consecutive is an operation of the queue,
or none. -/
theorem TicketMove.exec {popped items popped' items' : List ℕ}
    (h : TicketMove popped items popped' items') (hc : Consecutive popped' items') :
    ∃ ops : List TicketOp, ops.length ≤ 1
      ∧ Conc.exec TicketQueue.step (.of popped items) ops = some (.of popped' items') := by
  cases h with
  | stay => exact ⟨[], Nat.zero_le _, rfl⟩
  | push id =>
      refine ⟨[.append], Nat.le_refl _, ?_⟩
      have hid := hc.last
      subst hid
      simp only [exec_cons, TicketQueue.step, TicketQueue.of, exec_nil, Option.bind_some,
        List.length_append, List.length_singleton, Nat.add_assoc]
  | pop id rest hq =>
      subst hq
      refine ⟨[.pop], Nat.le_refl _, ?_⟩
      have hlen : (popped ++ [id]).length = popped.length + 1 := List.length_append
      simp only [exec_cons, TicketQueue.step, TicketQueue.of, exec_nil, Option.bind_some, hlen,
        List.length_cons, Option.some.injEq, TicketQueue.mk.injEq]
      exact ⟨trivial, by omega, trivial⟩

end Conc
