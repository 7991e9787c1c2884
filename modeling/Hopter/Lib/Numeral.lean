import Mathlib.Data.Nat.Digits.Lemmas

/-!
# Numerals, as they are written

Mathlib has the digits of a number with the least significant one first. On paper
they stand the other way around, and a reader takes them in from the left. A
numeral is canonical if it does not begin with a zero, unless it is the one of
zero; every number has one.
-/

namespace Numeral

/-- What a reader makes of the digits, most significant first. -/
def value (base : ℕ) (ds : List ℕ) : ℕ := ds.foldl (fun n d => n * base + d) 0

/-- `ds` is the canonical numeral of `n`. -/
structure Writes (base n : ℕ) (ds : List ℕ) : Prop where
  digit : ∀ d ∈ ds, d < base
  value_eq : value base ds = n
  ne_nil : ds ≠ []
  /-- No zero in front, unless the number is zero. -/
  head : ds.head? = some 0 → n = 0 ∧ ds = [0]

variable {base n : ℕ}

theorem value_reverse (base : ℕ) (ds : List ℕ) :
    value base ds.reverse = Nat.ofDigits base ds := by
  unfold value
  rw [List.foldl_reverse, Nat.ofDigits_eq_foldr]
  congr 1
  funext d n
  simp [Nat.add_comm, Nat.mul_comm]

/-- **The digits of a number**, the other way around, are its numeral. -/
theorem writes_digits (hbase : 1 < base) (hn : n ≠ 0) :
    Writes base n (Nat.digits base n).reverse where
  digit := by
    intro d hd
    exact Nat.digits_lt_base hbase (List.mem_reverse.mp hd)
  value_eq := by rw [value_reverse, Nat.ofDigits_digits]
  ne_nil := by
    rw [ne_eq, List.reverse_eq_nil_iff]
    exact Nat.digits_ne_nil_iff_ne_zero.mpr hn
  head := by
    intro hzero
    rw [List.head?_reverse, List.getLast?_eq_some_getLast
      (Nat.digits_ne_nil_iff_ne_zero.mpr hn), Option.some.injEq] at hzero
    exact absurd hzero (Nat.getLast_digit_ne_zero base hn)

theorem writes_zero (hbase : 0 < base) : Writes base 0 [0] where
  digit := by simpa using hbase
  value_eq := by simp [value]
  ne_nil := List.cons_ne_nil 0 []
  head := fun _ => ⟨rfl, rfl⟩

/-- Every number has a numeral. -/
theorem exists_writes (hbase : 1 < base) (n : ℕ) : ∃ ds, Writes base n ds := by
  by_cases hn : n = 0
  · subst hn
    exact ⟨[0], writes_zero (by omega)⟩
  · exact ⟨_, writes_digits hbase hn⟩

end Numeral
