import Hopter.Bump.Disjoint

/-!
# The loop of `alloc`

A call works with the value of `next` that it has seen, and it is its
`compare_exchange` that finds out whether `next` is still there. Since `next` only
moves up, a request that did not fit from an old value does not fit from the new
one either, so a call that returns null is right, whatever it has seen. A call that
is overtaken goes on from a larger value, and there are no more than `HEAP_SIZE` of
these, whatever the other threads do.
-/

namespace Hopter.Bump

open Conc

variable {ι : Type} [DecidableEq ι] {p : Program}

/-- The arithmetic of a round: the sum in front of the mask, the one that is subtracted from it and
from the alignment, and the sum that `checked_add` lets through. -/
structure Call.InRange (call : Call) : Prop where
  sum : call.cur.toNat + call.layout.align.toNat < 2 ^ 64
  pred : 1 ≤ call.layout.align.toNat
  aligned : (alignOffset call.cur call.layout).toNat
    = Word.alignUp call.cur.toNat call.layout.align.toNat
  stop : ∀ end_, checkedAdd (alignOffset call.cur call.layout) call.layout.size = some end_ →
    end_.toNat = (alignOffset call.cur call.layout).toNat + call.layout.size.toNat

/-- The request does not fit into what is left of the heap. -/
def Full (p : Program) (next : BitVec 64) (layout : Layout) : Prop :=
  p.heapSize.toNat < Word.alignUp next.toNat layout.align.toNat + layout.size.toNat

/-- What the loop keeps. -/
structure Call.Progress (p : Program) (s : BumpAllocator) (call : Call) : Prop where
  full : call.pc = .done none → Full p s.next call.layout
  rounds : call.iterations + call.first.toNat ≤ call.cur.toNat + 1

/-- A request that does not fit does not fit later. -/
theorem Full.grows {s s' : BumpAllocator} {layout : Layout} (h : Full p s.next layout)
    (hs : s.Grows s') : Full p s'.next layout := by
  have hle := Word.alignUp_mono (a := layout.align.toNat) hs.next
  unfold Full at h ⊢
  omega

theorem Call.Progress.grows {s s' : BumpAllocator} {call : Call} (h : call.Progress p s)
    (hs : s.Grows s') : call.Progress p s' :=
  ⟨fun hdone => (h.full hdone).grows hs, h.rounds⟩

theorem inRange_of_cur {call : Call} (hcur : call.cur.toNat ≤ p.heapSize.toNat) :
    call.InRange := by
  have hheap := p.heapSize_le
  have halign := call.layout.align_le
  refine ⟨by omega, call.layout.align_pos, alignOffset_toNat hcur, ?_⟩
  intro end_ hend
  unfold checkedAdd at hend
  split at hend
  · rename_i hfit
    obtain rfl := Option.some.inj hend
    rw [BitVec.toNat_add, Nat.mod_eq_of_lt hfit]
  · simp at hend

/-- A `compare_exchange` that fails has seen a larger value. -/
theorem lt_next_of_ne {s : BumpAllocator} {call : Call} (h : call.Sound p s)
    (hne : s.next ≠ call.cur) : call.cur.toNat < s.next.toNat := by
  have hle := h.cur
  have hne : s.next.toNat ≠ call.cur.toNat := fun heq => hne (BitVec.eq_of_toNat_eq heq)
  omega

/-- A round that gives up has found no room, and there is none where `next` is. -/
theorem full_of_attempt {s : BumpAllocator} {call : Call} (h : s.Sound p) (hcall : call.Sound p s)
    (hnull : attempt p call.layout call.cur = .done none) : Full p s.next call.layout := by
  have hle := Word.alignUp_mono (a := call.layout.align.toNat) hcall.cur
  rcases attempt_spec (hcall.cur.trans h.next_le) call.layout with
    ⟨-, hfull⟩ | ⟨aligned, end_, hattempt, -⟩
  · unfold Full
    omega
  · rw [hattempt] at hnull
    simp at hnull

/-- **One step of the thread itself.** -/
theorem progress_local {s s' : BumpAllocator} {local_ local_' : Option Call} {a : Act}
    (h : s.Sound p) (hcall : ∀ call ∈ local_, call.Sound p s ∧ call.Progress p s)
    (hs : s.step p local_ a = some (s', local_')) : ∀ call ∈ local_', call.Progress p s' := by
  rcases BumpAllocator.step_cases hs with ⟨layout, cur, rfl, rfl, -, rfl, rfl⟩
    | ⟨call, rfl, rfl, -, rfl, rfl⟩ | ⟨call, aligned, end_, rfl, rfl, -, -, rfl, rfl⟩
    | ⟨call, aligned, end_, rfl, rfl, -, hnext, rfl, rfl⟩ | ⟨call, result, rfl, rfl, -, rfl, rfl⟩
    | ⟨ptr, layout, rfl, rfl, rfl, rfl⟩
  · intro call' hmem
    obtain rfl := Option.some.inj hmem
    exact ⟨by simp, by simp [Nat.add_comm]⟩
  · intro call' hmem
    obtain rfl := Option.some.inj hmem
    obtain ⟨hsound, hprogress⟩ := hcall call rfl
    have hfull : attempt p call.layout call.cur = .done none → Full p s'.next call.layout :=
      full_of_attempt h hsound
    exact ⟨hfull, hprogress.rounds⟩
  · intro call' hmem
    obtain rfl := Option.some.inj hmem
    exact ⟨by simp, (hcall call rfl).2.rounds⟩
  · intro call' hmem
    obtain rfl := Option.some.inj hmem
    obtain ⟨hsound, hprogress⟩ := hcall call rfl
    have hlt := lt_next_of_ne hsound hnext
    have hrounds := hprogress.rounds
    refine ⟨by simp, ?_⟩
    show call.iterations + 1 + call.first.toNat ≤ s'.next.toNat + 1
    omega
  · intro call' hmem
    simp at hmem
  · intro call' hmem
    simp at hmem

theorem progress_step {c c' : Machine ι} {e : ι × Act} (hsound : c.Sound p)
    (h : ∀ i, ∀ call ∈ c.thread i, call.Progress p c.shared)
    (hs : Machine.step p c e = some c') : ∀ i, ∀ call ∈ c'.thread i, call.Progress p c'.shared := by
  intro i call hmem
  by_cases hi : i = e.1
  · subst hi
    exact progress_local hsound.shared (fun call hcall => ⟨hsound.calls e.1 call hcall,
      h e.1 call hcall⟩) (Config.local_of_step hs) call hmem
  · rw [Config.thread_of_step hs hi] at hmem
    exact (h i call hmem).grows (sound_step hsound hs).2

theorem progress_reachable {c : Machine ι} (h : Reachable (Machine.step p) .init c) :
    ∀ i, ∀ call ∈ c.thread i, call.Progress p c.shared := by
  refine h.invariant (I := fun c => ∀ i, ∀ call ∈ c.thread i, call.Progress p c.shared) ?_
    fun hr h hs => progress_step (sound_reachable hr) h hs
  intro i call hmem
  simp [Machine.init] at hmem

/-! ## A call that returns null -/

/-- A call that is over stays as it is until it returns. -/
theorem done_stays {c c' : Machine ι} {i : ι} {es : List (ι × Act)} {call : Call}
    {result : Option (BitVec 64)} (hrun : exec (Machine.step p) c es = some c')
    (hcall : c.thread i = some call) (hdone : call.pc = .done result)
    (hret : (i, Act.ret) ∉ es) : c'.thread i = some call := by
  induction es generalizing c with
  | nil =>
      rw [exec_nil, Option.some.injEq] at hrun
      exact hrun ▸ hcall
  | cons e es ih =>
      rw [exec_cons, Option.bind_eq_some_iff] at hrun
      obtain ⟨d, hs, hrun⟩ := hrun
      rw [List.mem_cons, not_or] at hret
      refine ih hrun ?_ hret.2
      by_cases hi : i = e.1
      · have hlocal := Config.local_of_step hs
        rw [← hi, hcall] at hlocal
        have hne : e.2 ≠ .ret := by
          intro ha
          exact hret.1 (Prod.ext hi ha.symm)
        rcases BumpAllocator.step_cases hlocal with ⟨_, _, -, hnone, -⟩ | ⟨_, -, hsome, hpc, -⟩
          | ⟨_, _, _, -, hsome, hpc, -⟩ | ⟨_, _, _, -, hsome, hpc, -⟩ | ⟨_, _, ha, -⟩
          | ⟨_, _, -, hnone, -⟩
        · simp at hnone
        · obtain rfl := Option.some.inj hsome
          rw [hdone] at hpc
          simp at hpc
        · obtain rfl := Option.some.inj hsome
          rw [hdone] at hpc
          simp at hpc
        · obtain rfl := Option.some.inj hsome
          rw [hdone] at hpc
          simp at hpc
        · exact absurd ha hne
        · simp at hnone
      · rw [Config.thread_of_step hs hi, hcall]

/-- A step that moves `next` is the `compare_exchange` of a call that does not return null. -/
theorem next_of_step {c c' : Machine ι} {i : ι} {a : Act}
    (hs : Machine.step p c (i, a) = some c') :
    c'.shared.next = c.shared.next
      ∨ ∃ call aligned, c'.thread i = some call ∧ call.pc = .done (some aligned) := by
  rcases BumpAllocator.step_cases (Config.local_of_step hs) with ⟨_, _, -, -, -, hshared, -⟩
    | ⟨_, -, -, -, hshared, -⟩ | ⟨_, aligned, _, -, -, -, -, -, hthread⟩
    | ⟨_, _, _, -, -, -, -, hshared, -⟩ | ⟨_, _, -, -, -, hshared, -⟩ | ⟨_, _, -, -, hshared, -⟩
  · exact Or.inl (congrArg BumpAllocator.next hshared)
  · exact Or.inl (congrArg BumpAllocator.next hshared)
  · exact Or.inr ⟨_, aligned, hthread, rfl⟩
  · exact Or.inl (congrArg BumpAllocator.next hshared)
  · exact Or.inl (congrArg BumpAllocator.next hshared)
  · exact Or.inl (congrArg BumpAllocator.next hshared)

/-- **Out of memory is reported exactly and harmlessly.** Nothing wraps around outside of
`checked_add`. When a call returns null there is no room for the request, now and not only where the
call has looked; and no step of that call has moved `next`. -/
theorem out_of_memory_exact (p : Program) {c : Machine ι}
    (h : Reachable (Machine.step p) .init c) {i : ι} {call : Call}
    (hcall : c.thread i = some call) :
    call.InRange
    ∧ (call.pc = .done none → Full p c.shared.next call.layout)
    ∧ (call.pc = .done none → ∀ c₀ es, exec (Machine.step p) c₀ es = some c →
      (i, Act.ret) ∉ es → ∀ d a d', Takes (Machine.step p) c₀ es d (i, a) →
        Machine.step p d (i, a) = some d' → d'.shared.next = d.shared.next) := by
  have hsound := sound_reachable h
  have hcur := ((hsound.calls i call hcall).cur).trans hsound.shared.next_le
  refine ⟨inRange_of_cur hcur, (progress_reachable h i call hcall).full, ?_⟩
  intro hnull c₀ es hrun hret d a d' htakes hs
  rcases next_of_step hs with hsame | ⟨call', aligned, hcall', hdone⟩
  · exact hsame
  · -- a call that has moved `next` would still be over, and not with null
    obtain ⟨post, hpost, hrest⟩ := htakes.rest hs hrun
    have hstays := done_stays hrest hcall' hdone fun hmem => hret (hpost.subset hmem)
    obtain rfl := Option.some.inj (hcall.symm.trans hstays)
    rw [hnull] at hdone
    simp at hdone

/-- Most of the heap of `main_with_unwinding.rs`, and more than the rest. -/
def large : Layout := ⟨16000, 8, word.align_pow, by decide⟩

def rest : Layout := ⟨500, 16, ⟨4, rfl⟩, by decide⟩

/-- A call starts from an old value, with which its request would fit. -/
def exhaustedRun : List (ℕ × Act) :=
  [(0, .load large 0), (0, .compute), (0, .exchange), (1, .load rest 0), (1, .compute),
    (1, .exchange), (1, .compute)]

theorem out_of_memory_exact_exhausted :
    ∃ c call, exec (Machine.step .mainWithUnwinding) .init exhaustedRun = some c
      ∧ c.thread 1 = some call ∧ call.pc = .done none ∧ call.first = 0 ∧ call.iterations = 2
      ∧ call.InRange ∧ Full .mainWithUnwinding c.shared.next call.layout := by
  have hthread : (exec (Machine.step .mainWithUnwinding) .init exhaustedRun).map (·.thread 1)
      = some (some ⟨rest, 0, 2, 16000, .done none⟩) := by decide
  obtain ⟨c, hrun, hcall⟩ := Option.map_eq_some_iff.mp hthread
  obtain ⟨hrange, hfull, -⟩ := out_of_memory_exact .mainWithUnwinding ⟨exhaustedRun, hrun⟩ hcall
  exact ⟨c, _, hrun, hcall, rfl, rfl, rfl, hrange, hfull rfl⟩

/-! ## A call that is overtaken -/

/-- The steps that a call may still take, whatever `next` becomes. -/
def Call.rank (p : Program) (call : Call) : ℕ :=
  match call.pc with
  | .loop => 2 * (p.heapSize.toNat - call.cur.toNat) + 2
  | .exchange _ _ => 2 * (p.heapSize.toNat - call.cur.toNat) + 1
  | .done _ => 0

theorem rank_le (p : Program) (call : Call) :
    call.rank p ≤ 2 * (p.heapSize.toNat - call.cur.toNat + 1) := by
  unfold Call.rank
  split <;> omega

/-- **A step of a call** brings it closer to its end, also the failing `compare_exchange`. -/
theorem rank_step {c c' : Machine ι} {i : ι} {a : Act} {call : Call} (h : c.Sound p)
    (hcall : c.thread i = some call) (hs : Machine.step p c (i, a) = some c') (hret : a ≠ .ret) :
    ∃ call', c'.thread i = some call' ∧ call'.rank p < call.rank p := by
  have hsound := h.calls i call hcall
  have hlocal := Config.local_of_step hs
  rw [hcall] at hlocal
  rcases BumpAllocator.step_cases hlocal with ⟨_, _, -, hnone, -⟩
    | ⟨_, -, hsome, hpc, -, hthread⟩ | ⟨_, _, _, -, hsome, hpc, -, -, hthread⟩
    | ⟨_, _, _, -, hsome, hpc, hnext, -, hthread⟩ | ⟨_, _, ha, -⟩ | ⟨_, _, -, hnone, -⟩
  · simp at hnone
  · obtain rfl := Option.some.inj hsome
    refine ⟨_, hthread, ?_⟩
    unfold Call.rank
    rw [hpc]
    rcases attempt_spec (hsound.cur.trans h.shared.next_le) call.layout with
      ⟨hattempt, -⟩ | ⟨aligned, end_, hattempt, -⟩
    · simp [hattempt]
    · simp [hattempt]
  · obtain rfl := Option.some.inj hsome
    refine ⟨_, hthread, ?_⟩
    unfold Call.rank
    rw [hpc]
    simp
  · obtain rfl := Option.some.inj hsome
    refine ⟨_, hthread, ?_⟩
    have hlt := lt_next_of_ne hsound hnext
    have hheap := h.shared.next_le
    unfold Call.rank
    rw [hpc]
    show 2 * (p.heapSize.toNat - c.shared.next.toNat) + 2
      < 2 * (p.heapSize.toNat - call.cur.toNat) + 1
    omega
  · exact absurd ha hret
  · simp at hnone

/-- **A run.** Steps of the other threads cost the call nothing. -/
theorem rank_run {c c' : Machine ι} {i : ι} {es : List (ι × Act)} {call : Call} (h : c.Sound p)
    (hcall : c.thread i = some call) (hrun : exec (Machine.step p) c es = some c')
    (hret : (i, Act.ret) ∉ es) :
    ∃ call', c'.thread i = some call' ∧ es.countP (·.1 = i) + call'.rank p ≤ call.rank p := by
  induction es generalizing c call with
  | nil =>
      rw [exec_nil, Option.some.injEq] at hrun
      exact ⟨call, hrun ▸ hcall, by simp⟩
  | cons e es ih =>
      rw [exec_cons, Option.bind_eq_some_iff] at hrun
      obtain ⟨d, hs, hrun⟩ := hrun
      rw [List.mem_cons, not_or] at hret
      have hd := (sound_step h hs).1
      by_cases hi : e.1 = i
      · subst hi
        have hne : e.2 ≠ .ret := by
          intro ha
          exact hret.1 (Prod.ext rfl ha.symm)
        obtain ⟨call₁, hcall₁, hlt⟩ := rank_step h hcall hs hne
        obtain ⟨call', hcall', hle⟩ := ih hd hcall₁ hrun hret.2
        refine ⟨call', hcall', ?_⟩
        rw [List.countP_cons_of_pos (by simp)]
        omega
      · have hsame : d.thread i = some call := by
          rw [Config.thread_of_step hs fun heq => hi heq.symm, hcall]
        obtain ⟨call', hcall', hle⟩ := ih hd hsame hrun hret.2
        refine ⟨call', hcall', ?_⟩
        rw [List.countP_cons_of_neg (by simpa using hi)]
        exact hle

/-- A call that is not over has a next step. -/
theorem call_live {c : Machine ι} {i : ι} {call : Call} (hcall : c.thread i = some call)
    (hdone : ∀ result, call.pc ≠ .done result) : ∃ a c', Machine.step p c (i, a) = some c' := by
  have hstep : ∃ a s' l', c.shared.step p (some call) a = some (s', l') := by
    cases hpc : call.pc with
    | loop => exact ⟨.compute, _, _, by simp only [BumpAllocator.step, hpc]; rfl⟩
    | exchange aligned end_ =>
        refine ⟨.exchange, ?_⟩
        simp only [BumpAllocator.step, hpc]
        split
        · exact ⟨_, _, rfl⟩
        · exact ⟨_, _, rfl⟩
    | done result => exact absurd hpc (hdone result)
  obtain ⟨a, s', l', hs⟩ := hstep
  exact ⟨a, _, Config.step_eq_some.mpr ⟨s', l', hcall ▸ hs, rfl⟩⟩

/-- **The loop ends.** A `compare_exchange` that fails has seen a larger value; so the loop is
entered no more often than there are values, the steps of a call are bounded by what is left of the
heap, and until it is over it has a next one. -/
theorem cas_loop_ends (p : Program) {c : Machine ι} (h : Reachable (Machine.step p) .init c)
    {i : ι} {call : Call} (hcall : c.thread i = some call) :
    (∀ c' call', Machine.step p c (i, .exchange) = some c' → c'.thread i = some call' →
      call'.pc = .loop → call'.cur = c.shared.next ∧ call.cur.toNat < c.shared.next.toNat)
    ∧ call.iterations ≤ p.heapSize.toNat - call.first.toNat + 1
    ∧ (∀ es c', exec (Machine.step p) c es = some c' → (i, Act.ret) ∉ es →
      es.countP (·.1 = i) ≤ 2 * (p.heapSize.toNat - call.cur.toNat + 1))
    ∧ ((∀ result, call.pc ≠ .done result) → ∃ a c', Machine.step p c (i, a) = some c') := by
  have hsound := sound_reachable h
  have hcallSound := hsound.calls i call hcall
  refine ⟨?_, ?_, ?_, call_live hcall⟩
  · intro c' call' hs hcall' hloop
    have hlocal := Config.local_of_step hs
    rw [hcall, hcall'] at hlocal
    rcases BumpAllocator.step_cases hlocal with ⟨_, _, ha, -⟩ | ⟨_, ha, -⟩
      | ⟨_, _, _, -, -, -, -, -, hthread⟩ | ⟨_, _, _, -, hsome, -, hnext, -, hthread⟩
      | ⟨_, _, ha, -⟩ | ⟨_, _, ha, -⟩
    · simp at ha
    · simp at ha
    · obtain rfl := Option.some.inj hthread
      simp at hloop
    · obtain rfl := Option.some.inj hsome
      obtain rfl := Option.some.inj hthread
      exact ⟨rfl, lt_next_of_ne hcallSound hnext⟩
    · simp at ha
    · simp at ha
  · have hrounds := (progress_reachable h i call hcall).rounds
    have hcur := hcallSound.cur
    have hheap := hsound.shared.next_le
    omega
  · intro es c' hrun hret
    obtain ⟨call', -, hle⟩ := rank_run hsound hcall hrun hret
    have hbound := rank_le p call
    omega

/-- In `overtakenRun` a call has gone around twice. -/
theorem cas_loop_ends_overtaken :
    ∃ c call, exec (Machine.step .mainWithUnwinding) .init overtakenRun = some c
      ∧ c.thread 2 = some call ∧ call.iterations = 2
      ∧ call.iterations ≤ Program.mainWithUnwinding.heapSize.toNat - call.first.toNat + 1 := by
  have hthread : (exec (Machine.step .mainWithUnwinding) .init overtakenRun).map (·.thread 2)
      = some (some ⟨word, 0, 2, 32, .done (some 32)⟩) := by decide
  obtain ⟨c, hrun, hcall⟩ := Option.map_eq_some_iff.mp hthread
  obtain ⟨-, hrounds, -⟩ := cas_loop_ends .mainWithUnwinding ⟨overtakenRun, hrun⟩ hcall
  exact ⟨c, _, hrun, hcall, rfl, hrounds⟩

end Hopter.Bump
