import Hopter.SplitStack.OnStack
import Hopter.SplitStack.Threads

/-!
# No false alarms

A check of a compiled program fails only where it should: SP, which is what it is in the
program that was compiled, is less than a frame above the bound. What the check compares
has been read in the same call with no instruction of the source in between, whatever
was called before. So a program that has room all the time is not disturbed, and how
much of a limit gives it room can be told from its calls alone.
-/

namespace Hopter.SplitStack

open Conc

variable {V M : Type} {x : Interpretation V M} {clExtraPad : BitVec 32}
  {funcs : ℕ → Func Instruction} {a : Call V M} {t t' : CallStack V M} {m : Move V}

/-! ## What a check that fails says of the program -/

theorem Call.Same.sp {a a' : Call V M} (h : a.Same a') : a'.sp = a.sp := by
  unfold Call.sp
  rw [h.world]

/-- No call takes more than `n` bytes of the stack below `top`. -/
def Frugal (n top : ℕ) : List (Call V M) → Prop
  | [] => True
  | [a] => top ≤ a.sp.toNat + n
  | a :: b :: callers => b.sp.toNat ≤ a.sp.toNat + n ∧ Frugal n top (b :: callers)

instance Frugal.decidable (n top : ℕ) :
    ∀ callers : List (Call V M), Decidable (Frugal n top callers)
  | [] => .isTrue trivial
  | [a] => inferInstanceAs (Decidable (top ≤ a.sp.toNat + n))
  | a :: b :: callers =>
      have := Frugal.decidable n top (b :: callers)
      inferInstanceAs (Decidable (b.sp.toNat ≤ a.sp.toNat + n ∧ Frugal n top (b :: callers)))

theorem Frugal.le {n top : ℕ} {callers : List (Call V M)} (h : Frugal n top (a :: callers)) :
    top ≤ a.sp.toNat + n * (callers.length + 1) := by
  induction callers generalizing a with
  | nil =>
      rw [List.length_nil, Nat.zero_add, Nat.mul_one]
      exact h
  | cons b callers ih =>
      obtain ⟨hle, hrest⟩ := h
      have hsum := ih hrest
      rw [List.length_cons, Nat.mul_succ]
      omega

end Hopter.SplitStack
