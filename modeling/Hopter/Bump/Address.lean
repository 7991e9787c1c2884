import Hopter.Bump.Disjoint

/-!
# The addresses that `alloc` returns

Offsets are what `alloc` aligns; what its callers get is an offset from the address
of the heap, and that is a multiple of 16 and of nothing more. So a pointer is
aligned as its layout asks exactly when the heap is.
-/

namespace Hopter.Bump

open Conc

/-- `HeapStorage`, by its address. -/
structure HeapStorage where
  base : BitVec 64
  /-- `#[repr(align(16))]` -/
  repr_align : 16 ∣ base.toNat

/-- What the caller of `alloc` gets: `null_mut()`, or `heap.0.as_mut_ptr().add(aligned)`. -/
def HeapStorage.pointer (heap : HeapStorage) : Option (BitVec 64) → BitVec 64
  | none => 0
  | some aligned => heap.base + aligned

variable {ι : Type} [DecidableEq ι] {p : Program}

omit [DecidableEq ι] in
/-- What `alloc` returns is aligned as an offset. -/
theorem aligned_of_done {c : Machine ι} (h : c.Sound p) {i : ι} {call : Call}
    {aligned : BitVec 64} (hcall : c.thread i = some call)
    (hdone : call.pc = .done (some aligned)) : call.layout.align.toNat ∣ aligned.toNat :=
  h.shared.aligned _ ((h.calls i call hcall).done aligned hdone)

/-- **When a pointer is aligned as its layout asks**: when the address of the heap is. -/
theorem pointer_aligned_iff (p : Program) (heap : HeapStorage) {c : Machine ι}
    (h : Reachable (Machine.step p) .init c) {i : ι} {call : Call} {result : Option (BitVec 64)}
    (hcall : c.thread i = some call) (hdone : call.pc = .done result)
    (hptr : heap.pointer result ≠ 0) :
    call.layout.align.toNat ∣ (heap.pointer result).toNat
      ↔ call.layout.align.toNat ∣ heap.base.toNat := by
  cases result with
  | none => exact absurd rfl hptr
  | some aligned =>
      have hoffset := aligned_of_done (sound_reachable h) hcall hdone
      obtain ⟨k, hk⟩ := call.layout.align_pow
      have hle : 2 ^ k ≤ 2 ^ 63 := hk ▸ call.layout.align_le
      have hk64 : k ≤ 64 := by
        have := (Nat.pow_le_pow_iff_right (Nat.lt_succ_self 1)).mp hle
        omega
      rw [hk] at hoffset ⊢
      exact Word.dvd_toNat_add_iff hk64 hoffset

/-- Up to an alignment of 16 it always is. -/
theorem base_aligned_of_le (heap : HeapStorage) (layout : Layout)
    (hle : layout.align.toNat ≤ 16) : layout.align.toNat ∣ heap.base.toNat := by
  obtain ⟨k, hk⟩ := layout.align_pow
  have hk4 : k ≤ 4 := by
    rw [hk] at hle
    exact (Nat.pow_le_pow_iff_right (Nat.lt_succ_self 1)).mp hle
  rw [hk]
  exact (Nat.pow_dvd_pow 2 hk4).trans heap.repr_align

/-- A heap on a boundary of 16 bytes, and of no more. -/
def oddHeap : HeapStorage := ⟨0x40080010, by decide⟩

/-- A cache line. -/
def line : Layout := ⟨64, 64, ⟨6, rfl⟩, by decide⟩

/-- The first allocation. -/
def firstRun (layout : Layout) : List (ℕ × Act) :=
  [(0, .load layout 0), (0, .compute), (0, .exchange)]

/-- A cache line that is allocated first is at the address of the heap, across two of them. -/
theorem line_misaligned :
    ∃ c call, exec (Machine.step .main) .init (firstRun line) = some c
      ∧ c.thread 0 = some call ∧ call.layout = line ∧ call.pc = .done (some 0)
      ∧ oddHeap.pointer (some 0) ≠ 0
      ∧ ¬ line.align.toNat ∣ (oddHeap.pointer (some 0)).toNat := by
  have hthread : (exec (Machine.step .main) .init (firstRun line)).map (·.thread 0)
      = some (some ⟨line, 0, 1, 0, .done (some 0)⟩) := by decide
  obtain ⟨c, hrun, hcall⟩ := Option.map_eq_some_iff.mp hthread
  exact ⟨c, _, hrun, hcall, rfl, rfl, by decide, by decide⟩

/-- A word is aligned there. -/
theorem pointer_aligned_word :
    ∃ c call, exec (Machine.step .main) .init (firstRun word) = some c
      ∧ c.thread 0 = some call ∧ call.layout = word ∧ call.pc = .done (some 0)
      ∧ word.align.toNat ∣ (oddHeap.pointer (some 0)).toNat := by
  have hthread : (exec (Machine.step .main) .init (firstRun word)).map (·.thread 0)
      = some (some ⟨word, 0, 1, 0, .done (some 0)⟩) := by decide
  obtain ⟨c, hrun, hcall⟩ := Option.map_eq_some_iff.mp hthread
  have halign := pointer_aligned_iff .main oddHeap ⟨firstRun word, hrun⟩ hcall rfl (by decide)
  exact ⟨c, _, hrun, hcall, rfl, rfl, halign.mpr (base_aligned_of_le oddHeap word (by decide))⟩

end Hopter.Bump
