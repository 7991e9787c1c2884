import Hopter.Lib.Arena
import Hopter.Bump.Allocator

/-!
# Allocations do not overlap

`next` is a watermark. A `compare_exchange` that succeeds has seen what `next` is,
so the range it takes starts there or above, whether the load that the call began
with was stale or not; and whatever happens in between to a call that fails, `next`
has only moved up.
-/

namespace Hopter.Bump

open Conc

variable {ι : Type} [DecidableEq ι] {p : Program}

/-- The bytes of the heap that a call has returned. -/
def Allocation.extent (a : Allocation) : Arena.Extent ℕ :=
  ⟨a.aligned.toNat, a.aligned.toNat + a.layout.size.toNat⟩

/-- The allocator between two steps. -/
structure BumpAllocator.Sound (p : Program) (s : BumpAllocator) : Prop where
  stacked : Arena.Stacked s.next.toNat (s.allocations.map Allocation.extent)
  next_le : s.next.toNat ≤ p.heapSize.toNat
  aligned : ∀ a ∈ s.allocations, a.layout.align.toNat ∣ a.aligned.toNat
  past : ∀ v ∈ s.past, v.toNat ≤ s.next.toNat

/-- A call between two steps. -/
structure Call.Sound (p : Program) (s : BumpAllocator) (call : Call) : Prop where
  cur : call.cur.toNat ≤ s.next.toNat
  exchange : ∀ aligned end_, call.pc = .exchange aligned end_ →
    aligned.toNat = Word.alignUp call.cur.toNat call.layout.align.toNat
      ∧ end_.toNat = aligned.toNat + call.layout.size.toNat ∧ end_.toNat ≤ p.heapSize.toNat
  done : ∀ aligned, call.pc = .done (some aligned) → ⟨call.layout, aligned⟩ ∈ s.allocations

/-- What every step does to the allocator. -/
structure BumpAllocator.Grows (s s' : BumpAllocator) : Prop where
  next : s.next.toNat ≤ s'.next.toNat
  allocations : s.allocations <:+ s'.allocations

theorem BumpAllocator.Grows.refl (s : BumpAllocator) : s.Grows s :=
  ⟨Nat.le_refl _, List.suffix_refl _⟩

theorem Call.Sound.grows {s s' : BumpAllocator} {call : Call} (h : call.Sound p s)
    (hs : s.Grows s') : call.Sound p s' :=
  ⟨h.cur.trans hs.next, h.exchange, fun aligned hdone =>
    hs.allocations.subset (h.done aligned hdone)⟩

/-- **A `compare_exchange` that succeeds** has seen what `next` is, so its range starts there or
above. -/
theorem sound_exchange {s : BumpAllocator} {call : Call} {aligned end_ : BitVec 64}
    (h : s.Sound p) (hcall : call.Sound p s) (hpc : call.pc = .exchange aligned end_)
    (hnext : s.next = call.cur) :
    let s' : BumpAllocator := ⟨end_, s.next :: s.past, ⟨call.layout, aligned⟩ :: s.allocations⟩
    s'.Sound p ∧ s.Grows s' := by
  obtain ⟨haligned, hend, hheap⟩ := hcall.exchange aligned end_ hpc
  have hstart : s.next.toNat ≤ aligned.toNat := by
    rw [hnext, haligned]
    exact Word.le_alignUp call.layout.align_pos
  have hgrows : s.Grows ⟨end_, s.next :: s.past, ⟨call.layout, aligned⟩ :: s.allocations⟩ := by
    refine ⟨?_, List.suffix_cons _ _⟩
    show s.next.toNat ≤ end_.toNat
    omega
  refine ⟨⟨?_, hheap, ?_, ?_⟩, hgrows⟩
  · have hstacked := h.stacked.push (e := Allocation.extent ⟨call.layout, aligned⟩) hstart
      (Nat.le_add_right _ _)
    show Arena.Stacked end_.toNat (Allocation.extent ⟨call.layout, aligned⟩ :: _)
    rw [hend]
    exact hstacked
  · refine List.forall_mem_cons.mpr ⟨?_, h.aligned⟩
    rw [haligned]
    exact Word.dvd_alignUp _ _
  · refine List.forall_mem_cons.mpr ⟨hgrows.next, fun v hv => ?_⟩
    exact (h.past v hv).trans hgrows.next

/-- A round of the loop. -/
theorem sound_compute {s : BumpAllocator} {call : Call} (h : s.Sound p) (hcall : call.Sound p s) :
    Call.Sound p s { call with pc := attempt p call.layout call.cur } := by
  rcases attempt_spec (hcall.cur.trans h.next_le) call.layout with
    ⟨hattempt, -⟩ | ⟨aligned, end_, hattempt, hspec⟩
  · rw [hattempt]
    exact ⟨hcall.cur, fun aligned end_ hpc => (by cases hpc), fun aligned hpc => (by cases hpc)⟩
  · rw [hattempt]
    refine ⟨hcall.cur, fun aligned' end_' hpc => ?_, fun aligned' hpc => (by cases hpc)⟩
    cases hpc
    exact hspec

/-- **One step of one thread.** -/
theorem sound_local {s s' : BumpAllocator} {local_ local_' : Option Call} {a : Act}
    (h : s.Sound p) (hcall : ∀ call ∈ local_, call.Sound p s)
    (hs : s.step p local_ a = some (s', local_')) :
    s'.Sound p ∧ (∀ call ∈ local_', call.Sound p s') ∧ s.Grows s' := by
  rcases BumpAllocator.step_cases hs with ⟨layout, cur, rfl, rfl, hcur, rfl, rfl⟩
    | ⟨call, rfl, rfl, hpc, rfl, rfl⟩ | ⟨call, aligned, end_, rfl, rfl, hpc, hnext, rfl, rfl⟩
    | ⟨call, aligned, end_, rfl, rfl, hpc, hnext, rfl, rfl⟩
    | ⟨call, result, rfl, rfl, hpc, rfl, rfl⟩
    | ⟨ptr, layout, rfl, rfl, rfl, rfl⟩
  · refine ⟨h, fun call hmem => ?_, .refl _⟩
    cases hmem
    refine ⟨?_, fun aligned end_ hpc => (by cases hpc), fun aligned hpc => (by cases hpc)⟩
    rcases List.mem_cons.mp hcur with heq | hpast
    · rw [← heq]
    · exact h.past cur hpast
  · have hsound := hcall call rfl
    refine ⟨h, fun call' hmem => ?_, .refl _⟩
    cases hmem
    exact sound_compute h hsound
  · have hsound := hcall call rfl
    obtain ⟨hsound', hgrows⟩ := sound_exchange h hsound hpc hnext
    refine ⟨hsound', fun call' hmem => ?_, hgrows⟩
    cases hmem
    refine ⟨hsound.cur.trans hgrows.next, fun aligned' end_' hpc => (by cases hpc),
      fun aligned' hdone => ?_⟩
    cases hdone
    exact List.mem_cons_self
  · refine ⟨h, fun call' hmem => ?_, .refl _⟩
    cases hmem
    exact ⟨Nat.le_refl _, fun aligned' end_' hpc => (by cases hpc),
      fun aligned' hpc => (by cases hpc)⟩
  · exact ⟨h, fun call' hmem => (by cases hmem), .refl _⟩
  · exact ⟨h, fun call' hmem => (by cases hmem), .refl _⟩

/-- The allocator and all calls. -/
structure Machine.Sound (p : Program) (c : Machine ι) : Prop where
  shared : c.shared.Sound p
  calls : ∀ i, ∀ call ∈ c.thread i, call.Sound p c.shared

omit [DecidableEq ι] in
theorem sound_init : (Machine.init : Machine ι).Sound p := by
  refine ⟨⟨.nil _, Nat.zero_le _, fun a ha => ?_, fun v hv => ?_⟩,
    fun i call hcall => by cases hcall⟩
  · exact absurd ha List.not_mem_nil
  · exact absurd hv List.not_mem_nil

/-- **One step of the machine.** -/
theorem sound_step {c c' : Machine ι} {e : ι × Act} (h : c.Sound p)
    (hs : Machine.step p c e = some c') : c'.Sound p ∧ c.shared.Grows c'.shared := by
  obtain ⟨hshared, hcall, hgrows⟩ :=
    sound_local h.shared (h.calls e.1) (Config.local_of_step hs)
  refine ⟨⟨hshared, fun i call hmem => ?_⟩, hgrows⟩
  by_cases hi : i = e.1
  · subst hi
    exact hcall call hmem
  · rw [Config.thread_of_step hs hi] at hmem
    exact (h.calls i call hmem).grows hgrows

theorem sound_reachable {c : Machine ι} (h : Reachable (Machine.step p) .init c) : c.Sound p :=
  h.invariant sound_init fun _ hsound hs => (sound_step hsound hs).1

/-- `dealloc` does nothing. -/
theorem dealloc_shared {c c' : Machine ι} {i : ι} {ptr : BitVec 64} {layout : Layout}
    (hs : Machine.step p c (i, .dealloc ptr layout) = some c') : c'.shared = c.shared := by
  rcases BumpAllocator.step_cases (Config.local_of_step hs) with ⟨_, _, ha, -⟩ | ⟨_, ha, -⟩
    | ⟨_, _, _, ha, -⟩ | ⟨_, _, _, ha, -⟩ | ⟨_, _, ha, -⟩ | ⟨_, _, -, -, hshared, -⟩
  · cases ha
  · cases ha
  · cases ha
  · cases ha
  · cases ha
  · exact hshared

/-- **Bump allocations never overlap**, in whatever order the threads take their steps. -/
theorem allocations_disjoint (p : Program) {c : Machine ι}
    (h : Reachable (Machine.step p) .init c) :
    (c.shared.allocations.Pairwise fun a b => Disjoint a.extent.span b.extent.span)
    ∧ (∀ a ∈ c.shared.allocations, a.extent.span ⊆ Set.Ico 0 p.heapSize.toNat
      ∧ a.extent.stop ≤ c.shared.next.toNat ∧ a.layout.align.toNat ∣ a.extent.start)
    ∧ c.shared.next.toNat ≤ p.heapSize.toNat
    -- what a call returns is one of them
    ∧ (∀ i call aligned, c.thread i = some call → call.pc = .done (some aligned) →
      ⟨call.layout, aligned⟩ ∈ c.shared.allocations)
    ∧ (∀ e c', Machine.step p c e = some c' → c.shared.next.toNat ≤ c'.shared.next.toNat)
    ∧ ∀ i ptr layout c', Machine.step p c (i, .dealloc ptr layout) = some c' →
      c'.shared = c.shared := by
  have hsound := sound_reachable h
  have hstop : ∀ a ∈ c.shared.allocations, a.extent.stop ≤ c.shared.next.toNat := fun a ha =>
    hsound.shared.stacked.top _ (List.mem_map_of_mem ha)
  refine ⟨?_, fun a ha => ⟨?_, hstop a ha, hsound.shared.aligned a ha⟩, hsound.shared.next_le,
    fun i call aligned hcall hdone => (hsound.calls i call hcall).done aligned hdone,
    fun e c' hs => (sound_step hsound hs).2.next, fun i ptr layout c' hs => dealloc_shared hs⟩
  · have hdisjoint := hsound.shared.stacked.disjoint
    rw [List.pairwise_map] at hdisjoint
    exact hdisjoint
  · intro x hx
    exact ⟨Nat.zero_le x, hx.2.trans_le ((hstop a ha).trans hsound.shared.next_le)⟩

/-- Two layouts. -/
def word : Layout := ⟨24, 8, ⟨3, rfl⟩, by decide⟩

def byte : Layout := ⟨1, 1, ⟨0, rfl⟩, by decide⟩

/-- A call is overtaken twice, once between its load and its `compare_exchange`, and another one
starts from a value that is out of date. -/
def overtakenRun : List (ℕ × Act) :=
  [(0, .load word 0), (1, .load byte 0), (1, .compute), (0, .compute), (1, .exchange),
    (0, .exchange), (0, .compute), (2, .load word 0), (2, .compute), (0, .exchange), (1, .ret),
    (2, .exchange), (2, .compute), (2, .exchange), (1, .dealloc 0 byte)]

theorem allocations_disjoint_overtaken :
    ∃ c, exec (Machine.step .mainWithUnwinding) .init overtakenRun = some c
      ∧ c.shared.allocations = [⟨word, 32⟩, ⟨word, 8⟩, ⟨byte, 0⟩] ∧ c.shared.next = 56
      ∧ c.shared.allocations.Pairwise fun a b => Disjoint a.extent.span b.extent.span := by
  have hshared : (exec (Machine.step .mainWithUnwinding) .init overtakenRun).map (·.shared)
      = some ⟨56, [32, 1, 0], [⟨word, 32⟩, ⟨word, 8⟩, ⟨byte, 0⟩]⟩ := by decide
  obtain ⟨c, hrun, hc⟩ := Option.map_eq_some_iff.mp hshared
  have hdisjoint := (allocations_disjoint .mainWithUnwinding ⟨overtakenRun, hrun⟩).1
  exact ⟨c, hrun, by rw [hc], by rw [hc], hdisjoint⟩

end Hopter.Bump
