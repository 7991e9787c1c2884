import Hopter.Lib.Align
import Hopter.Lib.Interleave

/-!
# `BumpAllocator`

The global allocator of `main.rs`, and its copy in `main_with_unwinding.rs` with a
smaller heap. A call of `alloc` loads `next` with `Ordering::Relaxed`, so it may see
any value that `next` has had; what follows is a loop around a `compare_exchange`,
which sees what `next` is. Threads, and the interrupt handlers on top of them, are
the threads here, and their calls are interleaved in every way.
-/

namespace Hopter.Bump

open Conc

/-- The programs that have the allocator. -/
inductive Program where
  | main
  | mainWithUnwinding
  deriving DecidableEq

/-- `HEAP_SIZE` -/
def Program.heapSize : Program → BitVec 64
  | .main => 256 * 1024
  | .mainWithUnwinding => 16 * 1024

/-- `core::alloc::Layout`: no other can be built. -/
structure Layout where
  size : BitVec 64
  align : BitVec 64
  align_pow : ∃ k, align.toNat = 2 ^ k
  /-- Rounded up to the alignment the size is an `isize`. -/
  size_le : Word.alignUp size.toNat align.toNat ≤ 2 ^ 63 - 1
  deriving DecidableEq

/-- What a call has returned, as an offset into the heap. -/
structure Allocation where
  layout : Layout
  aligned : BitVec 64
  deriving DecidableEq

structure BumpAllocator where
  next : BitVec 64
  /-- The values it had before. -/
  past : List (BitVec 64)
  /-- What all calls have returned, the last one first. -/
  allocations : List Allocation
  deriving DecidableEq

/-- `BumpAllocator::new` -/
def BumpAllocator.new : BumpAllocator := ⟨0, [], []⟩

/-- Where a call of `alloc` is. -/
inductive Pc where
  | loop
  /-- Before `compare_exchange(cur, end, ..)`. -/
  | exchange (aligned end_ : BitVec 64)
  /-- It returns this offset, or null. -/
  | done (result : Option (BitVec 64))
  deriving DecidableEq

structure Call where
  layout : Layout
  /-- What the load returned. -/
  first : BitVec 64
  /-- How often the loop was entered. -/
  iterations : ℕ
  cur : BitVec 64
  pc : Pc
  deriving DecidableEq

inductive Act where
  /-- The call, and its load of `next`. -/
  | load (layout : Layout) (cur : BitVec 64)
  /-- The loop up to `compare_exchange`. -/
  | compute
  | exchange
  /-- Back to the caller. -/
  | ret
  | dealloc (ptr : BitVec 64) (layout : Layout)
  deriving DecidableEq

/-- `usize::checked_add` -/
def checkedAdd (a b : BitVec 64) : Option (BitVec 64) :=
  if a.toNat + b.toNat < 2 ^ 64 then some (a + b) else none

/-- `(cur + layout.align() - 1) & !(layout.align() - 1)` -/
def alignOffset (cur : BitVec 64) (layout : Layout) : BitVec 64 :=
  (cur + layout.align - 1) &&& ~~~(layout.align - 1)

/-- One round of the loop, up to `compare_exchange`. -/
def attempt (p : Program) (layout : Layout) (cur : BitVec 64) : Pc :=
  let aligned := alignOffset cur layout
  match checkedAdd aligned layout.size with
  | none => .done none
  | some end_ => if p.heapSize < end_ then .done none else .exchange aligned end_

/-- One atomic step of a thread; `none` as its local state is a thread that is not in `alloc`. -/
def BumpAllocator.step (p : Program) (s : BumpAllocator) :
    Option Call → Act → Option (BumpAllocator × Option Call)
  | none, .load layout cur =>
      if cur ∈ s.next :: s.past then some (s, some ⟨layout, cur, 1, cur, .loop⟩) else none
  | none, .dealloc _ _ => some (s, none)
  | some call, .compute =>
      match call.pc with
      | .loop => some (s, some { call with pc := attempt p call.layout call.cur })
      | _ => none
  | some call, .exchange =>
      match call.pc with
      | .exchange aligned end_ =>
          if s.next = call.cur then
            some (⟨end_, s.next :: s.past, ⟨call.layout, aligned⟩ :: s.allocations⟩,
              some { call with pc := .done (some aligned) })
          else
            some (s, some { call with
              cur := s.next, iterations := call.iterations + 1, pc := .loop })
      | _ => none
  | some call, .ret =>
      match call.pc with
      | .done _ => some (s, none)
      | _ => none
  | _, _ => none

/-- The allocator, and every thread. -/
abbrev Machine (ι : Type) := Config BumpAllocator ι (Option Call)

/-- Nobody has called it yet. -/
def Machine.init {ι : Type} : Machine ι := ⟨.new, fun _ => none⟩

/-- A thread takes a step. -/
abbrev Machine.step {ι : Type} [DecidableEq ι] (p : Program) :
    Machine ι → ι × Act → Option (Machine ι) :=
  Config.step (BumpAllocator.step p)

/-! ## A round of the loop -/

namespace Layout

variable (layout : Layout)

theorem align_pos : 0 < layout.align.toNat := by
  obtain ⟨k, hk⟩ := layout.align_pow
  rw [hk]
  exact Nat.two_pow_pos k

theorem align_le : layout.align.toNat ≤ 2 ^ 63 := by
  obtain ⟨k, hk⟩ := layout.align_pow
  have hlt : 2 ^ k < 2 ^ 64 := hk ▸ layout.align.isLt
  have hk63 : k < 64 := (Nat.pow_lt_pow_iff_right (Nat.lt_succ_self 1)).mp hlt
  rw [hk]
  exact Nat.pow_le_pow_right (by omega) (by omega)

end Layout

theorem Program.heapSize_le (p : Program) : p.heapSize.toNat ≤ 2 ^ 18 := by
  cases p <;> decide

variable {p : Program} {layout : Layout} {cur : BitVec 64}

/-- With an offset in the heap nothing wraps around in front of `checked_add`. -/
theorem alignOffset_toNat (hcur : cur.toNat ≤ p.heapSize.toNat) :
    (alignOffset cur layout).toNat = Word.alignUp cur.toNat layout.align.toNat := by
  obtain ⟨k, hk⟩ := layout.align_pow
  have hheap := p.heapSize_le
  have halign := layout.align_le
  have hlt := Word.alignUp_lt (n := cur.toNat) layout.align_pos
  have hsum : cur + layout.align - 1 = cur + (layout.align - 1) := by
    rw [BitVec.sub_eq_add_neg, BitVec.sub_eq_add_neg, BitVec.add_assoc]
  unfold alignOffset
  rw [hsum, Word.toNat_alignUp cur hk, ← hk, Nat.mod_eq_of_lt (by omega)]

theorem attempt_exchange (hcur : cur.toNat ≤ p.heapSize.toNat)
    (hfit : Word.alignUp cur.toNat layout.align.toNat + layout.size.toNat ≤ p.heapSize.toNat) :
    attempt p layout cur
      = .exchange (alignOffset cur layout) (alignOffset cur layout + layout.size) := by
  have haligned : (alignOffset cur layout).toNat = _ := alignOffset_toNat hcur
  have hheap := p.heapSize_le
  have hadd : checkedAdd (alignOffset cur layout) layout.size
      = some (alignOffset cur layout + layout.size) := if_pos (by omega)
  have hend : ¬ p.heapSize < alignOffset cur layout + layout.size := by
    rw [BitVec.lt_def, BitVec.toNat_add]
    omega
  unfold attempt
  simp only [hadd, if_neg hend]

/-- `checked_add` may catch it, or the comparison does. -/
theorem attempt_null (hcur : cur.toNat ≤ p.heapSize.toNat)
    (hfull : p.heapSize.toNat < Word.alignUp cur.toNat layout.align.toNat + layout.size.toNat) :
    attempt p layout cur = .done none := by
  have haligned : (alignOffset cur layout).toNat = _ := alignOffset_toNat hcur
  unfold attempt
  by_cases hsum : (alignOffset cur layout).toNat + layout.size.toNat < 2 ^ 64
  · have hadd : checkedAdd (alignOffset cur layout) layout.size
        = some (alignOffset cur layout + layout.size) := if_pos hsum
    have hend : p.heapSize < alignOffset cur layout + layout.size := by
      rw [BitVec.lt_def, BitVec.toNat_add]
      omega
    simp only [hadd, if_pos hend]
  · have hadd : checkedAdd (alignOffset cur layout) layout.size = none := if_neg hsum
    simp only [hadd]

/-- **What a round decides.** -/
theorem attempt_spec (hcur : cur.toNat ≤ p.heapSize.toNat) (layout : Layout) :
    (attempt p layout cur = .done none
      ∧ p.heapSize.toNat < Word.alignUp cur.toNat layout.align.toNat + layout.size.toNat)
    ∨ ∃ aligned end_, attempt p layout cur = .exchange aligned end_
      ∧ aligned.toNat = Word.alignUp cur.toNat layout.align.toNat
      ∧ end_.toNat = aligned.toNat + layout.size.toNat ∧ end_.toNat ≤ p.heapSize.toNat := by
  have haligned : (alignOffset cur layout).toNat = _ := alignOffset_toNat hcur
  have hheap := p.heapSize_le
  by_cases hfit : Word.alignUp cur.toNat layout.align.toNat + layout.size.toNat ≤ p.heapSize.toNat
  · have hend : (alignOffset cur layout + layout.size).toNat
        = (alignOffset cur layout).toNat + layout.size.toNat := by
      rw [BitVec.toNat_add, Nat.mod_eq_of_lt (by omega)]
    exact Or.inr ⟨_, _, attempt_exchange hcur hfit, haligned, hend, by omega⟩
  · exact Or.inl ⟨attempt_null hcur (by omega), by omega⟩

/-! ## One step -/

variable {s s' : BumpAllocator} {local_ local_' : Option Call} {a : Act}

/-- **Inversion.** -/
theorem BumpAllocator.step_cases (h : s.step p local_ a = some (s', local_')) :
    (∃ layout cur, a = .load layout cur ∧ local_ = none ∧ cur ∈ s.next :: s.past ∧ s' = s
      ∧ local_' = some ⟨layout, cur, 1, cur, .loop⟩)
    ∨ (∃ call, a = .compute ∧ local_ = some call ∧ call.pc = .loop ∧ s' = s
      ∧ local_' = some { call with pc := attempt p call.layout call.cur })
    ∨ (∃ call aligned end_, a = .exchange ∧ local_ = some call
      ∧ call.pc = .exchange aligned end_ ∧ s.next = call.cur
      ∧ s' = ⟨end_, s.next :: s.past, ⟨call.layout, aligned⟩ :: s.allocations⟩
      ∧ local_' = some { call with pc := .done (some aligned) })
    ∨ (∃ call aligned end_, a = .exchange ∧ local_ = some call
      ∧ call.pc = .exchange aligned end_ ∧ s.next ≠ call.cur ∧ s' = s
      ∧ local_' = some { call with
        cur := s.next, iterations := call.iterations + 1, pc := .loop })
    ∨ (∃ call result, a = .ret ∧ local_ = some call ∧ call.pc = .done result ∧ s' = s
      ∧ local_' = none)
    ∨ ∃ ptr layout, a = .dealloc ptr layout ∧ local_ = none ∧ s' = s ∧ local_' = none := by
  unfold BumpAllocator.step at h
  split at h
  · rename_i layout cur
    obtain ⟨hcur, heq⟩ := Option.ite_none_right_eq_some.mp h
    cases heq
    exact Or.inl ⟨layout, cur, rfl, rfl, hcur, rfl, rfl⟩
  · rename_i ptr layout
    cases h
    exact Or.inr (Or.inr (Or.inr (Or.inr (Or.inr ⟨ptr, layout, rfl, rfl, rfl, rfl⟩))))
  · rename_i call
    split at h
    · rename_i hpc
      cases h
      exact Or.inr (Or.inl ⟨call, rfl, rfl, hpc, rfl, rfl⟩)
    · cases h
  · rename_i call
    split at h
    · rename_i aligned end_ hpc
      split at h
      · rename_i hnext
        cases h
        exact Or.inr (Or.inr (Or.inl ⟨call, aligned, end_, rfl, rfl, hpc, hnext, rfl, rfl⟩))
      · rename_i hnext
        cases h
        exact Or.inr (Or.inr (Or.inr (Or.inl
          ⟨call, aligned, end_, rfl, rfl, hpc, hnext, rfl, rfl⟩)))
    · cases h
  · rename_i call
    split at h
    · rename_i result hpc
      cases h
      exact Or.inr (Or.inr (Or.inr (Or.inr (Or.inl ⟨call, result, rfl, rfl, hpc, rfl, rfl⟩))))
    · cases h
  · cases h

end Hopter.Bump
