import Mathlib.Algebra.GroupWithZero.Nat
import Mathlib.Data.List.Pairwise
import Mathlib.Order.CompletePartialOrder
import Mathlib.Order.Interval.Set.Disjoint

/-!
# An arena that is filled from below

Ranges are laid one above the other, each from a watermark on that all the earlier
ones are below. So they cannot overlap, however the gaps between them come about,
and it does not matter whether some of them are empty.
-/

namespace Arena

variable {α : Type*} [LinearOrder α]

/-- From `start` on, up to `stop`. -/
structure Extent (α : Type*) where
  start : α
  stop : α

namespace Extent

/-- The positions in it. -/
def span (e : Extent α) : Set α := Set.Ico e.start e.stop

/-- `e` ends where `f` starts, or earlier. -/
def Below (e f : Extent α) : Prop := e.stop ≤ f.start

theorem Below.disjoint {e f : Extent α} (h : e.Below f) : Disjoint e.span f.span := by
  unfold span
  rw [Set.Ico_disjoint_Ico]
  exact (min_le_left _ _).trans (h.trans (le_max_right _ _))

end Extent

/-- The ranges are laid one above the other, the last one first, and all are below `top`. -/
structure Stacked (top : α) (es : List (Extent α)) : Prop where
  below : es.Pairwise fun later earlier => earlier.Below later
  proper : ∀ e ∈ es, e.start ≤ e.stop
  top : ∀ e ∈ es, e.stop ≤ top

namespace Stacked

variable {top top' : α} {es : List (Extent α)}

theorem nil (top : α) : Stacked top ([] : List (Extent α)) :=
  ⟨.nil, fun _ h => absurd h List.not_mem_nil, fun _ h => absurd h List.not_mem_nil⟩

/-- **A range from the watermark on** goes on top. -/
theorem push (h : Stacked top es) {e : Extent α} (hstart : top ≤ e.start)
    (hproper : e.start ≤ e.stop) : Stacked e.stop (e :: es) := by
  refine ⟨List.pairwise_cons.mpr ⟨fun f hf => (h.top f hf).trans hstart, h.below⟩,
    List.forall_mem_cons.mpr ⟨hproper, h.proper⟩,
    List.forall_mem_cons.mpr ⟨le_refl _, fun f hf => ?_⟩⟩
  exact (h.top f hf).trans (hstart.trans hproper)

/-- **No two ranges overlap.** -/
theorem disjoint (h : Stacked top es) :
    es.Pairwise fun e f => Disjoint e.span f.span :=
  h.below.imp fun hbelow => hbelow.disjoint.symm

/-- A position is in one range only. -/
theorem unique (h : Stacked top es) {i j : ℕ} {e f : Extent α} (hi : es[i]? = some e)
    (hj : es[j]? = some f) {x : α} (he : x ∈ e.span) (hf : x ∈ f.span) : i = j := by
  obtain ⟨hilt, hi⟩ := List.getElem?_eq_some_iff.mp hi
  obtain ⟨hjlt, hj⟩ := List.getElem?_eq_some_iff.mp hj
  subst hi hj
  have hdisjoint := List.pairwise_iff_getElem.mp h.disjoint
  rcases Nat.lt_trichotomy i j with hlt | heq | hgt
  · exact absurd hf (Set.disjoint_left.mp (hdisjoint i j hilt hjlt hlt) he)
  · exact heq
  · exact absurd he (Set.disjoint_left.mp (hdisjoint j i hjlt hilt hgt) hf)

/-- What lies under the last range. -/
theorem below_last {e : Extent α} (h : Stacked top (e :: es)) : Stacked e.start es :=
  ⟨(List.pairwise_cons.mp h.below).2, fun f hf => h.proper f (List.mem_cons_of_mem e hf),
    (List.pairwise_cons.mp h.below).1⟩

/-- What the ranges hold together fits under the watermark. -/
theorem total_le {top : ℕ} {es : List (Extent ℕ)} (h : Stacked top es) :
    (es.map fun e => e.stop - e.start).sum ≤ top := by
  induction es generalizing top with
  | nil => exact Nat.zero_le top
  | cons e es ih =>
      have hrest := ih h.below_last
      have hproper := h.proper e List.mem_cons_self
      have htop := h.top e List.mem_cons_self
      rw [List.map_cons, List.sum_cons]
      omega

end Stacked

end Arena
