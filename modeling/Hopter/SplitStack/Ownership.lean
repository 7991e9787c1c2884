import Hopter.SplitStack.Runtime

/-!
# Who frees a `thread_arg_t`

`pthread_create` allocates a block for the function and its argument, and the
trampoline of the new thread frees it. So a block belongs to the thread it is for,
from the call on until the trampoline has read it, and what is live is what the
trampolines that have not begun are yet to free. A call that the system refuses has
a block as well, but no thread, and the wrapper returns without a look at it.
-/

namespace Hopter.SplitStack

open Conc

/-- The function and the argument of a call that succeeds. -/
def RuntimeAction.starts : RuntimeAction → Option (ℕ × ℕ)
  | .pthreadCreate startRoutine arg (.created _ _) => some (startRoutine, arg)
  | _ => none

/-- The real `pthread_create` returns an error. -/
def RuntimeAction.refused : RuntimeAction → Bool
  | .pthreadCreate _ _ .refused => true
  | _ => false

/-- How often a thread has freed its block. -/
def Thread.frees (th : Thread) : ℕ := if th.pc = .start then 0 else 1

/-- How often it has called its start routine. -/
def Thread.calls (th : Thread) : ℕ := if th.pc = .called then 1 else 0

/-- A run has taken the step `step i` as often as thread `i` has it behind itself. -/
def Counts (es : List RuntimeAction) (threads : List Thread) (step : ℕ → RuntimeAction)
    (behind : Thread → ℕ) : Prop :=
  ∀ i, es.count (step i) = threads[i]?.elim 0 behind

/-- The run `es` has led to `p`, and nothing is lost and nothing done twice. -/
structure Accounted (es : List RuntimeAction) (p : Process) : Prop where
  /-- A call that fails starts no thread. -/
  started : p.threads.length = (es.filterMap RuntimeAction.starts).length
  /-- A thread has a block with what its own call was given, live until the trampoline frees it. -/
  block : ∀ (i : ℕ) (th : Thread), p.threads[i]? = some th →
    ∃ ta : ThreadArg, p.args[th.ta]? = some ta
    ∧ (es.filterMap RuntimeAction.starts)[i]? = some (ta.fn, ta.arg)
    ∧ (ta.freed = false ↔ th.pc = .start)
  own : ∀ (i j : ℕ) (th th' : Thread), p.threads[i]? = some th → p.threads[j]? = some th' →
    th.ta = th'.ta → i = j
  /-- A live block is one that a trampoline is yet to free. -/
  live : ∀ (b : ℕ) (ta : ThreadArg), p.args[b]? = some ta → ta.freed = false →
    ∃ (i : ℕ) (th : Thread), p.threads[i]? = some th ∧ th.ta = b ∧ th.pc = .start
  freed : Counts es p.threads .unpack Thread.frees
  called : Counts es p.threads .call Thread.calls
  /-- What a trampoline calls is what its own call of `pthread_create` was given. -/
  routine : ∀ (i : ℕ) (th : Thread), p.threads[i]? = some th → th.pc ≠ .start →
    th.routine = (es.filterMap RuntimeAction.starts)[i]?

/-- If every thread has entered its start routine, no block is live. -/
def Process.Settled (p : Process) : Prop :=
  (∀ th ∈ p.threads, th.pc = .called) → ∀ ta ∈ p.args, ta.freed = true

variable {env : Environment} {es : List RuntimeAction} {p p' : Process} {a : RuntimeAction}

theorem Accounted.settled (h : Accounted es p) : p.Settled := by
  intro hall ta hta
  obtain ⟨b, hb⟩ := List.mem_iff_getElem?.mp hta
  by_contra hlive
  obtain ⟨i, th, hth, -, hpc⟩ := h.live b ta hb (by simpa using hlive)
  rw [hall th (List.mem_of_getElem? hth)] at hpc
  cases hpc

theorem accounted_init : Accounted [] .init where
  started := rfl
  block := by intro i th hth; simp [Process.init] at hth
  own := by intro i j th th' hth; simp [Process.init] at hth
  live := by intro b ta hb; simp [Process.init] at hb
  freed := by intro i; simp [Process.init]
  called := by intro i; simp [Process.init]
  routine := by intro i th hth; simp [Process.init] at hth

/-! ## Counting steps -/

section Counts

variable {threads : List Thread} {step : ℕ → RuntimeAction} {behind : Thread → ℕ}

/-- Another step. -/
theorem Counts.same (h : Counts es threads step behind) (ha : ∀ i, a ≠ step i) :
    Counts (es ++ [a]) threads step behind := by
  intro i
  rw [List.count_append, h i, List.count_singleton, if_neg (by simpa using ha i), Nat.add_zero]

/-- A thread that has done nothing yet. -/
theorem Counts.push {th : Thread} (h : Counts es threads step behind) (hth : behind th = 0) :
    Counts es (threads ++ [th]) step behind := by
  intro i
  rw [h i]
  rcases Nat.lt_trichotomy i threads.length with hlt | rfl | hgt
  · rw [List.getElem?_append_left hlt]
  · simp [hth]
  · have hlen : (threads ++ [th]).length ≤ i := by simp; omega
    rw [List.getElem?_eq_none hlen, List.getElem?_eq_none (by omega)]

/-- Thread `i` moves, by a step that counts or another one. -/
theorem Counts.move {i : ℕ} {th th' : Thread} (h : Counts es threads step behind)
    (hth : threads[i]? = some th) (hself : behind th' = behind th + [a].count (step i))
    (hother : ∀ j, j ≠ i → a ≠ step j) : Counts (es ++ [a]) (threads.set i th') step behind := by
  intro j
  rw [List.count_append, h j]
  by_cases hj : j = i
  · subst hj
    have hlt : j < threads.length := (List.getElem?_eq_some_iff.mp hth).1
    rw [List.getElem?_set_self hlt, hth, Option.elim_some, Option.elim_some, hself]
  · rw [List.getElem?_set_ne (Ne.symm hj), List.count_singleton,
      if_neg (by simpa using hother j hj), Nat.add_zero]

end Counts

/-! ## One step -/

theorem getElem?_set_cases {α : Type} {l : List α} {i j : ℕ} {x y : α}
    (h : (l.set i x)[j]? = some y) : (j = i ∧ y = x) ∨ (j ≠ i ∧ l[j]? = some y) := by
  by_cases hj : j = i
  · subst hj
    obtain ⟨hlt, heq⟩ := List.getElem?_eq_some_iff.mp h
    rw [List.getElem_set_self] at heq
    exact Or.inl ⟨rfl, heq.symm⟩
  · rw [List.getElem?_set_ne (Ne.symm hj)] at h
    exact Or.inr ⟨hj, h⟩

theorem getElem?_push_cases {α : Type} {l : List α} {j : ℕ} {x y : α}
    (h : (l ++ [x])[j]? = some y) : l[j]? = some y ∨ (j = l.length ∧ y = x) := by
  rcases Nat.lt_trichotomy j l.length with hlt | rfl | hgt
  · rw [List.getElem?_append_left hlt] at h
    exact Or.inl h
  · rw [List.getElem?_concat_length, Option.some.injEq] at h
    exact Or.inr ⟨rfl, h.symm⟩
  · rw [List.getElem?_eq_none (by simp; omega)] at h
    cases h

theorem starts_same (ha : a.starts = none) :
    (es ++ [a]).filterMap RuntimeAction.starts = es.filterMap RuntimeAction.starts := by
  simp [ha]

theorem starts_push {call : ℕ × ℕ} (ha : a.starts = some call) :
    (es ++ [a]).filterMap RuntimeAction.starts
      = es.filterMap RuntimeAction.starts ++ [call] := by
  simp [ha]

/-- A step that has to do with no thread and no block. -/
theorem Accounted.other (h : Accounted es p) (hthreads : p'.threads = p.threads)
    (hargs : p'.args = p.args) (ha : a.starts = none) (hunpack : ∀ i, a ≠ .unpack i)
    (hcall : ∀ i, a ≠ .call i) : Accounted (es ++ [a]) p' := by
  refine ⟨?_, ?_, ?_, ?_, ?_, ?_, ?_⟩ <;> simp only [hthreads, hargs, starts_same ha]
  · exact h.started
  · exact h.block
  · exact h.own
  · exact h.live
  · exact h.freed.same hunpack
  · exact h.called.same hcall
  · exact h.routine

/-- Thread `i` moves. No other block than its own is touched. -/
theorem Accounted.move {i : ℕ} {th th' : Thread} {ta' : ThreadArg} (h : Accounted es p)
    (hth : p.threads[i]? = some th) (hthreads : p'.threads = p.threads.set i th')
    (hta : th'.ta = th.ta) (hta' : p'.args[th.ta]? = some ta')
    (hgiven : (es.filterMap RuntimeAction.starts)[i]? = some (ta'.fn, ta'.arg))
    (hfreed : ta'.freed = false ↔ th'.pc = .start)
    (hframe : ∀ b, b ≠ th.ta → p'.args[b]? = p.args[b]?)
    (hroutine : th'.pc ≠ .start → th'.routine = (es.filterMap RuntimeAction.starts)[i]?)
    (ha : a.starts = none)
    (hunpack : Counts (es ++ [a]) (p.threads.set i th') .unpack Thread.frees)
    (hcall : Counts (es ++ [a]) (p.threads.set i th') .call Thread.calls) :
    Accounted (es ++ [a]) p' := by
  have hlt : i < p.threads.length := (List.getElem?_eq_some_iff.mp hth).1
  -- the blocks of the threads in front of the step and behind it are the same
  have hold : ∀ (j : ℕ) (x : Thread), (p.threads.set i th')[j]? = some x →
      ∃ y, p.threads[j]? = some y ∧ x.ta = y.ta := by
    intro j x hx
    rcases getElem?_set_cases hx with ⟨rfl, rfl⟩ | ⟨-, hx⟩
    · exact ⟨th, hth, hta⟩
    · exact ⟨x, hx, rfl⟩
  refine ⟨?_, ?_, ?_, ?_, ?_, ?_, ?_⟩ <;> simp only [hthreads, starts_same ha]
  · rw [List.length_set]
    exact h.started
  · intro j x hx
    rcases getElem?_set_cases hx with ⟨rfl, rfl⟩ | ⟨hj, hx⟩
    · rw [hta]
      exact ⟨ta', hta', hgiven, hfreed⟩
    · have hne : x.ta ≠ th.ta := fun heq => hj (h.own j i x th hx hth heq)
      rw [hframe x.ta hne]
      exact h.block j x hx
  · intro j k x x' hx hx' heq
    obtain ⟨y, hy, hxy⟩ := hold j x hx
    obtain ⟨y', hy', hxy'⟩ := hold k x' hx'
    exact h.own j k y y' hy hy' (by rw [← hxy, ← hxy', heq])
  · intro b ta hb hlive
    by_cases hne : b = th.ta
    · subst hne
      obtain rfl : ta' = ta := Option.some.inj (hta'.symm.trans hb)
      exact ⟨i, th', List.getElem?_set_self hlt, hta, hfreed.mp hlive⟩
    · rw [hframe b hne] at hb
      obtain ⟨j, x, hx, hxb, hpc⟩ := h.live b ta hb hlive
      have hj : j ≠ i := by
        rintro rfl
        rw [hth, Option.some.injEq] at hx
        exact hne (by rw [← hxb, hx])
      exact ⟨j, x, by rw [List.getElem?_set_ne (Ne.symm hj)]; exact hx, hxb, hpc⟩
  · exact hunpack
  · exact hcall
  · intro j x hx hpc
    rcases getElem?_set_cases hx with ⟨rfl, rfl⟩ | ⟨-, hx⟩
    · exact hroutine hpc
    · exact h.routine j x hx hpc

/-- A call that succeeds: a block, and a thread for it. -/
theorem Accounted.create {fn arg : ℕ} {top size : BitVec 64} (h : Accounted es p) :
    Accounted (es ++ [.pthreadCreate fn arg (.created top size)])
      { p with
        args := p.args ++ [⟨fn, arg, false⟩],
        threads := p.threads ++ [⟨p.args.length, none, top, size, .start, 0⟩] } := by
  have hes : (es ++ [RuntimeAction.pthreadCreate fn arg (.created top size)]).filterMap
      RuntimeAction.starts = es.filterMap RuntimeAction.starts ++ [(fn, arg)] := starts_push rfl
  have hnew : ∀ (i : ℕ) (th : Thread), p.threads[i]? = some th → th.ta ≠ p.args.length := by
    intro i th hth heq
    obtain ⟨ta, hta, -⟩ := h.block i th hth
    have := (List.getElem?_eq_some_iff.mp hta).1
    omega
  refine ⟨?_, ?_, ?_, ?_, ?_, ?_, ?_⟩ <;> simp only [hes]
  · rw [List.length_append, List.length_append, h.started]
    rfl
  · intro i th hth
    rcases getElem?_push_cases hth with hth | ⟨rfl, rfl⟩
    · obtain ⟨ta, hta, hgiven, hfreed⟩ := h.block i th hth
      have hlt := (List.getElem?_eq_some_iff.mp hta).1
      have hi := (List.getElem?_eq_some_iff.mp hgiven).1
      refine ⟨ta, ?_, ?_, hfreed⟩
      · rw [List.getElem?_append_left hlt, hta]
      · rw [List.getElem?_append_left hi, hgiven]
    · refine ⟨⟨fn, arg, false⟩, List.getElem?_concat_length, ?_, by simp⟩
      rw [h.started]
      exact List.getElem?_concat_length
  · intro i j th th' hth hth' heq
    rcases getElem?_push_cases hth with hth | ⟨rfl, rfl⟩
    · rcases getElem?_push_cases hth' with hth' | ⟨rfl, rfl⟩
      · exact h.own i j th th' hth hth' heq
      · exact absurd heq (hnew i th hth)
    · rcases getElem?_push_cases hth' with hth' | ⟨rfl, -⟩
      · exact absurd heq.symm (hnew j th' hth')
      · rfl
  · intro b ta hb hlive
    rcases getElem?_push_cases hb with hb | ⟨rfl, -⟩
    · obtain ⟨i, th, hth, hrest⟩ := h.live b ta hb hlive
      have hlt := (List.getElem?_eq_some_iff.mp hth).1
      exact ⟨i, th, by rw [List.getElem?_append_left hlt]; exact hth, hrest⟩
    · exact ⟨p.threads.length, _, List.getElem?_concat_length, rfl, rfl⟩
  · exact (h.freed.same fun i heq => by cases heq).push rfl
  · exact (h.called.same fun i heq => by cases heq).push rfl
  · intro i th hth hpc
    rcases getElem?_push_cases hth with hth | ⟨-, rfl⟩
    · obtain ⟨ta, -, hgiven, -⟩ := h.block i th hth
      have hi := (List.getElem?_eq_some_iff.mp hgiven).1
      rw [List.getElem?_append_left hi]
      exact h.routine i th hth hpc
    · exact absurd rfl hpc

/-- The trampoline of thread `i` goes on, and leaves its block as it is. -/
theorem Accounted.goOn {i : ℕ} {th th' : Thread} (h : Accounted es p)
    (hth : p.threads[i]? = some th) (hta : th'.ta = th.ta) (hroutine : th'.routine = th.routine)
    (hpc : th.pc ≠ .start) (hpc' : th'.pc ≠ .start) (ha : a.starts = none)
    (hunpack : ∀ j, a ≠ .unpack j) (hself : th'.calls = th.calls + [a].count (.call i))
    (hother : ∀ j, j ≠ i → a ≠ .call j) :
    Accounted (es ++ [a]) { p with threads := p.threads.set i th' } := by
  obtain ⟨ta, hargs, hgiven, hfreed⟩ := h.block i th hth
  have hfrees : th'.frees = th.frees + [a].count (.unpack i) := by
    rw [List.count_singleton, if_neg (by simpa using hunpack i)]
    simp only [Thread.frees, if_neg hpc, if_neg hpc', Nat.add_zero]
  refine h.move hth rfl hta hargs hgiven ?_ (fun _ _ => rfl) ?_ ha
    (h.freed.move hth hfrees fun j _ => hunpack j) (h.called.move hth hself hother)
  · rw [hfreed]
    simp only [hpc, hpc']
  · intro _
    rw [hroutine]
    exact h.routine i th hth hpc

/-- **One step**, that is not a refused call. -/
theorem accounted_step (h : Accounted es p) (hs : p.step env a = some p')
    (ha : a.refused = false) : Accounted (es ++ [a]) p' := by
  rcases Process.step_cases hs with ⟨sp, rfl, -, rfl⟩ | ⟨rfl, -, rfl⟩ | ⟨rfl, -, rfl⟩
    | ⟨fn, arg, top, size, rfl, -, rfl⟩ | ⟨fn, arg, rfl, rfl⟩ | ⟨fn, arg, rfl, rfl⟩
    | ⟨i, th, ta, rfl, hth, hta, hpc, -, rfl⟩ | ⟨i, th, th', hth, rfl, hmove⟩
  · exact h.other rfl rfl rfl (fun _ heq => by cases heq) fun _ heq => by cases heq
  · exact h.other rfl rfl rfl (fun _ heq => by cases heq) fun _ heq => by cases heq
  · exact h.other rfl rfl rfl (fun _ heq => by cases heq) fun _ heq => by cases heq
  · exact h.create
  · cases ha
  · exact h.other rfl rfl rfl (fun _ heq => by cases heq) fun _ heq => by cases heq
  · obtain ⟨ta', hta', hgiven, -⟩ := h.block i th hth
    obtain rfl : ta' = ta := Option.some.inj (hta'.symm.trans hta)
    have hset : (p.args.set th.ta { ta' with freed := true })[th.ta]?
        = some { ta' with freed := true } :=
      List.getElem?_set_self (List.getElem?_eq_some_iff.mp hta).1
    refine h.move hth rfl rfl hset hgiven (by simp) (fun b hb => List.getElem?_set_ne (Ne.symm hb))
      (fun _ => hgiven.symm) rfl (h.freed.move hth ?_ ?_)
      (h.called.move hth ?_ fun _ _ heq => by cases heq)
    · simp [Thread.frees, hpc]
    · intro j hj heq
      cases heq
      exact hj rfl
    · simp [Thread.calls, hpc]
  · rcases hmove with ⟨rfl, hpc, rfl⟩ | ⟨max, rfl, hpc, rfl⟩ | ⟨rfl, hpc, rfl⟩
    · refine h.goOn hth rfl rfl ?_ ?_ rfl (fun _ heq => by cases heq) ?_ fun _ _ heq => by cases heq
      · simp [hpc]
      · simp
      · simp [Thread.calls, hpc]
    · refine h.goOn hth rfl rfl ?_ ?_ rfl (fun _ heq => by cases heq) ?_ fun _ _ heq => by cases heq
      · simp [hpc]
      · simp
      · simp [Thread.calls, hpc]
    · refine h.goOn hth rfl rfl ?_ ?_ rfl (fun _ heq => by cases heq) ?_ ?_
      · simp [hpc]
      · simp
      · simp [Thread.calls, hpc]
      · intro j hj heq
        cases heq
        exact hj rfl

/-- A refused call leaves a live block that no trampoline is going to free. -/
theorem not_accounted_refused {fn arg : ℕ} (h : Accounted es p) :
    ¬ Accounted (es ++ [.pthreadCreate fn arg .refused])
      { p with args := p.args ++ [⟨fn, arg, false⟩] } := by
  intro h'
  obtain ⟨i, th, hth, hta, -⟩ := h'.live p.args.length _ List.getElem?_concat_length rfl
  obtain ⟨ta, hargs, -⟩ := h.block i th hth
  have := (List.getElem?_eq_some_iff.mp hargs).1
  omega

/-- **A run keeps account of its blocks** as long as no call of the real `pthread_create` is
refused, and not otherwise. -/
theorem blocks_accounted_iff (env : Environment) (es : List RuntimeAction) :
    (∀ pre p, pre <+: es → exec (Process.step env) .init pre = some p →
      Accounted pre p ∧ p.Settled)
    ↔ ∀ p a, Takes (Process.step env) .init es p a → a.refused = false := by
  constructor
  · intro hall p a ⟨pre, hpre, hrun⟩
    by_contra hrefused
    obtain ⟨fn, arg, rfl⟩ : ∃ fn arg, a = .pthreadCreate fn arg .refused := by
      unfold RuntimeAction.refused at hrefused
      split at hrefused
      · exact ⟨_, _, rfl⟩
      · exact absurd rfl hrefused
    have hstep : exec (Process.step env) .init (pre ++ [.pthreadCreate fn arg .refused])
        = some { p with args := p.args ++ [⟨fn, arg, false⟩] } := exec_concat.mpr ⟨p, hrun, rfl⟩
    have hbefore := (hall pre p ((List.prefix_append pre _).trans hpre) hrun).1
    exact not_accounted_refused hbefore (hall _ _ hpre hstep).1
  · intro hall pre p hpre hrun
    have hacc : pre <+: es → Accounted pre p :=
      exec_history (I := fun pre p => pre <+: es → Accounted pre p) (fun _ => accounted_init)
        (fun {pre t t' a} hrun ih hs hpre => accounted_step
          (ih ((List.prefix_append pre [a]).trans hpre)) hs (hall t a ⟨pre, hpre, hrun⟩)) hrun
    exact ⟨hacc hpre, (hacc hpre).settled⟩

/-- One call, which the system refuses: no thread is there to free the block, and the wrapper has
not done it. -/
theorem refused_leaks :
    ∃ p, exec (Process.step ⟨none, fun _ => 0⟩) .init [.pthreadCreate 7 0 .refused] = some p
      ∧ p.threads = [] ∧ p.args = [⟨7, 0, false⟩]
      ∧ ¬ Accounted [.pthreadCreate 7 0 .refused] p ∧ ¬ p.Settled := by
  refine ⟨_, rfl, rfl, rfl, not_accounted_refused accounted_init, fun h => ?_⟩
  have := h (fun th hth => absurd hth List.not_mem_nil) ⟨7, 0, false⟩ (List.mem_singleton_self _)
  cases this

end Hopter.SplitStack
