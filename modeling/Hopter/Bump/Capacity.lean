import Mathlib.Algebra.BigOperators.Group.List.Basic
import Hopter.Bump.Retry

/-!
# How much the heap holds

`dealloc` gives nothing back, so what a program may allocate is a matter of all it has
allocated so far. Every allocation costs its size and the padding in front of it, and
the padding depends on the order in which the threads come. At most it is an alignment
less one. So a program whose sizes and alignments add up to no more than the heap is
never refused anything, in whatever order its threads take their steps; and what has
been refused once is refused for ever.
-/

namespace Hopter.Bump

open Conc

variable {ι : Type} [DecidableEq ι] {p : Program}

/-- The most a layout can cost: its size, and a padding. -/
def Layout.cost (layout : Layout) : ℕ := layout.size.toNat + (layout.align.toNat - 1)

/-- The most that all allocations can have cost. -/
def BumpAllocator.cost (s : BumpAllocator) : ℕ := (s.allocations.map (·.layout.cost)).sum

/-- The bytes that callers were given. -/
def BumpAllocator.given (s : BumpAllocator) : ℕ :=
  (s.allocations.map fun a => a.layout.size.toNat).sum

/-- A successful `compare_exchange` moves `next` by no more than the layout costs. -/
theorem alignUp_add_le (n : ℕ) (layout : Layout) :
    Word.alignUp n layout.align.toNat + layout.size.toNat ≤ n + layout.cost := by
  have hpos := layout.align_pos
  have hlt := Word.alignUp_lt (n := n) hpos
  unfold Layout.cost
  omega

theorem cost_local {s s' : BumpAllocator} {local_ local_' : Option Call} {a : Act}
    (h : s.next.toNat ≤ s.cost) (hcall : ∀ call ∈ local_, call.Sound p s)
    (hs : s.step p local_ a = some (s', local_')) : s'.next.toNat ≤ s'.cost := by
  rcases BumpAllocator.step_cases hs with ⟨_, _, -, -, -, rfl, -⟩ | ⟨_, -, -, -, rfl, -⟩
    | ⟨call, aligned, end_, -, rfl, hpc, hnext, rfl, -⟩ | ⟨_, _, _, -, -, -, -, rfl, -⟩
    | ⟨_, _, -, -, -, rfl, -⟩ | ⟨_, _, -, -, rfl, -⟩
  · exact h
  · exact h
  · obtain ⟨haligned, hend, -⟩ := (hcall call rfl).exchange aligned end_ hpc
    have hle := alignUp_add_le call.cur.toNat call.layout
    rw [hnext] at h
    show end_.toNat ≤ call.layout.cost + s.cost
    omega
  · exact h
  · exact h
  · exact h

theorem cost_reachable {c : Machine ι} (h : Reachable (Machine.step p) .init c) :
    c.shared.next.toNat ≤ c.shared.cost :=
  h.invariant (I := fun c => c.shared.next.toNat ≤ c.shared.cost) (Nat.le_refl 0)
    fun hr h hs => cost_local h (fun call hcall => (sound_reachable hr).calls _ call hcall)
      (Config.local_of_step hs)

/-- **Nothing is refused within the budget.** `next` is between what was given away and what that
can have cost; so a call returns null only if its cost does not fit with those of all allocations so
far, and a program gets no more than `HEAP_SIZE` bytes in all, whatever it deallocates. -/
theorem refused_over_budget (p : Program) {c : Machine ι}
    (h : Reachable (Machine.step p) .init c) :
    c.shared.given ≤ c.shared.next.toNat ∧ c.shared.next.toNat ≤ c.shared.cost
    ∧ c.shared.given ≤ p.heapSize.toNat
    ∧ ∀ i call, c.thread i = some call → call.pc = .done none →
      p.heapSize.toNat < c.shared.cost + call.layout.cost := by
  have hsound := sound_reachable h
  have hcost := cost_reachable h
  have hgiven : c.shared.given ≤ c.shared.next.toNat := by
    have htotal := hsound.shared.stacked.total_le
    rw [List.map_map] at htotal
    refine Nat.le_trans (Nat.le_of_eq ?_) htotal
    unfold BumpAllocator.given
    congr 1
    refine List.map_congr_left fun a _ => ?_
    simp [Allocation.extent]
  refine ⟨hgiven, hcost, hgiven.trans hsound.shared.next_le, fun i call hcall hnull => ?_⟩
  have hfull := (progress_reachable h i call hcall).full hnull
  have hle := alignUp_add_le c.shared.next.toNat call.layout
  unfold Full at hfull
  omega

/-- The last call of `exhaustedRun` is refused, and would have cost too much. -/
theorem refused_over_budget_exhausted :
    ∃ c call, exec (Machine.step .mainWithUnwinding) .init exhaustedRun = some c
      ∧ c.thread 1 = some call ∧ call.pc = .done none
      ∧ Program.mainWithUnwinding.heapSize.toNat < c.shared.cost + call.layout.cost := by
  have hthread : (exec (Machine.step .mainWithUnwinding) .init exhaustedRun).map (·.thread 1)
      = some (some ⟨rest, 0, 2, 16000, .done none⟩) := by decide
  obtain ⟨c, hrun, hcall⟩ := Option.map_eq_some_iff.mp hthread
  exact ⟨c, _, hrun, hcall, rfl,
    (refused_over_budget .mainWithUnwinding ⟨exhaustedRun, hrun⟩).2.2.2 1 _ hcall rfl⟩

/-! ## What was refused -/

/-- A larger alignment rounds further up. -/
theorem alignUp_le_of_align {n : ℕ} {a b : Layout} (h : a.align.toNat ≤ b.align.toNat) :
    Word.alignUp n a.align.toNat ≤ Word.alignUp n b.align.toNat := by
  obtain ⟨j, hj⟩ := a.align_pow
  obtain ⟨k, hk⟩ := b.align_pow
  have hjk : j ≤ k := by
    rw [hj, hk] at h
    exact (Nat.pow_le_pow_iff_right (Nat.lt_succ_self 1)).mp h
  -- `b`'s multiple is one of `a`'s, from `n` on
  have hdvd : a.align.toNat ∣ Word.alignUp n b.align.toNat := by
    refine Nat.dvd_trans ?_ (Word.dvd_alignUp n b.align.toNat)
    rw [hj, hk]
    exact Nat.pow_dvd_pow 2 hjk
  exact Word.alignUp_le_of_dvd a.align_pos hdvd (Word.le_alignUp b.align_pos)

/-- A layout that asks for as much as one that does not fit does not fit. -/
theorem Full.mono {next : BitVec 64} {a b : Layout} (h : Full p next a)
    (hsize : a.size.toNat ≤ b.size.toNat) (halign : a.align.toNat ≤ b.align.toNat) :
    Full p next b := by
  have hle := alignUp_le_of_align (n := next.toNat) halign
  unfold Full at h ⊢
  omega

/-- A step allocates something that fits, or nothing. -/
theorem allocations_step {c c' : Machine ι} {e : ι × Act} (h : c.Sound p)
    (hs : Machine.step p c e = some c') :
    c'.shared.allocations = c.shared.allocations
      ∨ ∃ a, c'.shared.allocations = a :: c.shared.allocations
        ∧ ¬ Full p c.shared.next a.layout := by
  rcases BumpAllocator.step_cases (Config.local_of_step hs) with ⟨_, _, -, -, -, hshared, -⟩
    | ⟨_, -, -, -, hshared, -⟩ | ⟨call, aligned, end_, -, hcall, hpc, hnext, hshared, -⟩
    | ⟨_, _, _, -, -, -, -, hshared, -⟩ | ⟨_, _, -, -, -, hshared, -⟩ | ⟨_, _, -, -, hshared, -⟩
  · exact Or.inl (congrArg BumpAllocator.allocations hshared)
  · exact Or.inl (congrArg BumpAllocator.allocations hshared)
  · refine Or.inr ⟨⟨call.layout, aligned⟩, congrArg BumpAllocator.allocations hshared, ?_⟩
    obtain ⟨haligned, hend, hheap⟩ := (h.calls e.1 call hcall).exchange aligned end_ hpc
    unfold Full
    rw [hnext]
    show ¬ p.heapSize.toNat < Word.alignUp call.cur.toNat call.layout.align.toNat
      + call.layout.size.toNat
    omega
  · exact Or.inl (congrArg BumpAllocator.allocations hshared)
  · exact Or.inl (congrArg BumpAllocator.allocations hshared)
  · exact Or.inl (congrArg BumpAllocator.allocations hshared)

/-- **What was refused once is refused for ever**: after a call has returned null nothing of at
least its size and its alignment is allocated any more, by any thread, and whatever is deallocated.
-/
theorem refused_forever (p : Program) {c c' : Machine ι}
    (h : Reachable (Machine.step p) .init c) {i : ι} {call : Call}
    (hcall : c.thread i = some call) (hnull : call.pc = .done none) {es : List (ι × Act)}
    (hrun : exec (Machine.step p) c es = some c') :
    ∃ later, c'.shared.allocations = later ++ c.shared.allocations
      ∧ ∀ a ∈ later, a.layout.size.toNat < call.layout.size.toNat
        ∨ a.layout.align.toNat < call.layout.align.toNat := by
  have hkept : c'.Sound p ∧ c.shared.Grows c'.shared
      ∧ ∃ later, c'.shared.allocations = later ++ c.shared.allocations
        ∧ ∀ a ∈ later, a.layout.size.toNat < call.layout.size.toNat
          ∨ a.layout.align.toNat < call.layout.align.toNat := by
    refine exec_history (I := fun _ d => d.Sound p ∧ c.shared.Grows d.shared
      ∧ ∃ later, d.shared.allocations = later ++ c.shared.allocations
        ∧ ∀ a ∈ later, a.layout.size.toNat < call.layout.size.toNat
          ∨ a.layout.align.toNat < call.layout.align.toNat) ?_ ?_ hrun
    · exact ⟨sound_reachable h, .refl _, [], rfl, fun a ha => absurd ha List.not_mem_nil⟩
    · rintro - d d' e - ⟨hsound, hgrows, later, hlater, hsmall⟩ hs
      obtain ⟨hsound', hstep⟩ := sound_step hsound hs
      refine ⟨hsound',
        ⟨hgrows.next.trans hstep.next, hgrows.allocations.trans hstep.allocations⟩, ?_⟩
      have hfull : Full p d.shared.next call.layout :=
        ((progress_reachable h i call hcall).full hnull).grows hgrows
      rcases allocations_step hsound hs with hsame | ⟨a, hnew, hfits⟩
      · exact ⟨later, hsame.trans hlater, hsmall⟩
      · refine ⟨a :: later, by rw [hnew, hlater]; rfl, List.forall_mem_cons.mpr ⟨?_, hsmall⟩⟩
        by_contra hlarge
        rw [not_or, Nat.not_lt, Nat.not_lt] at hlarge
        exact hfits (hfull.mono hlarge.1 hlarge.2)
  exact hkept.2.2

/-- Behind `exhaustedRun` there is still room for a byte. -/
theorem refused_forever_exhausted :
    ∃ c c', exec (Machine.step .mainWithUnwinding) .init exhaustedRun = some c
      ∧ exec (Machine.step .mainWithUnwinding) c
        [(2, .load byte 16000), (2, .compute), (2, .exchange)] = some c'
      ∧ ∃ later, c'.shared.allocations = later ++ c.shared.allocations
        ∧ ∀ a ∈ later, a.layout.size.toNat < 500 ∨ a.layout.align.toNat < 16 := by
  have hthread : (exec (Machine.step .mainWithUnwinding) .init exhaustedRun).map (·.thread 1)
      = some (some ⟨rest, 0, 2, 16000, .done none⟩) := by decide
  obtain ⟨c, hrun, hcall⟩ := Option.map_eq_some_iff.mp hthread
  have hlast : ((exec (Machine.step .mainWithUnwinding) .init
      (exhaustedRun ++ [(2, .load byte 16000), (2, .compute), (2, .exchange)])).map (·.shared.next))
      = some 16001 := by decide
  obtain ⟨c', hrun', -⟩ := Option.map_eq_some_iff.mp hlast
  rw [exec_append, hrun, Option.bind_some] at hrun'
  exact ⟨c, c', hrun, hrun', refused_forever .mainWithUnwinding ⟨_, hrun⟩ hcall rfl hrun'⟩

end Hopter.Bump
