import Mathlib.Data.Nat.Bitwise
import Mathlib.Algebra.Order.Group.Nat

/-!
# Aligning a word

Rounding up to a multiple, first for numbers and then for words, where it is done
with a mask and where the sum may wrap around.
-/

namespace Word

/-- The least multiple of `a` from `n` on. -/
def alignUp (n a : ℕ) : ℕ := (n + a - 1) / a * a

theorem dvd_alignUp (n a : ℕ) : a ∣ alignUp n a := Dvd.intro_left _ rfl

theorem le_alignUp {n a : ℕ} (ha : 0 < a) : n ≤ alignUp n a := by
  have hdiv := Nat.div_add_mod (n + a - 1) a
  have hmod := Nat.mod_lt (n + a - 1) ha
  unfold alignUp
  rw [Nat.mul_comm]
  omega

theorem alignUp_lt {n a : ℕ} (ha : 0 < a) : alignUp n a < n + a := by
  have hdiv := Nat.div_mul_le_self (n + a - 1) a
  unfold alignUp
  omega

theorem alignUp_mono {n m a : ℕ} (h : n ≤ m) : alignUp n a ≤ alignUp m a := by
  have hle : n + a - 1 ≤ m + a - 1 := by omega
  exact Nat.mul_le_mul_right a (Nat.div_le_div_right hle)

/-- No multiple from `n` on is below it. -/
theorem alignUp_le_of_dvd {n m a : ℕ} (ha : 0 < a) (hdvd : a ∣ m) (h : n ≤ m) :
    alignUp n a ≤ m := by
  obtain ⟨k, rfl⟩ := hdvd
  have hlt : (n + a - 1) / a < k + 1 := by
    rw [Nat.div_lt_iff_lt_mul ha, Nat.succ_mul, Nat.mul_comm k a]
    omega
  unfold alignUp
  rw [Nat.mul_comm]
  exact Nat.mul_le_mul_left a (Nat.le_of_lt_succ hlt)

section Mask

variable {w k : ℕ} {m : BitVec w}

theorem toNat_pred (hm : m.toNat = 2 ^ k) : (m - 1).toNat = 2 ^ k - 1 := by
  have hlt : 2 ^ k < 2 ^ w := hm ▸ m.isLt
  have hpos : 0 < 2 ^ k := Nat.two_pow_pos k
  have hone : BitVec.toNat (1 : BitVec w) = 1 := by
    show 1 % 2 ^ w = 1
    exact Nat.mod_eq_of_lt (by omega)
  rw [BitVec.toNat_sub_of_le (BitVec.le_def.mpr (by omega)), hm, hone]

/-- `!(m - 1)` clears the bits below the one of `m`. -/
theorem toNat_and_not_pred (x : BitVec w) (hm : m.toNat = 2 ^ k) :
    (x &&& ~~~(m - 1)).toNat = x.toNat / 2 ^ k * 2 ^ k := by
  refine Nat.eq_of_testBit_eq fun i => ?_
  rw [← Nat.shiftRight_eq_div_pow, ← Nat.shiftLeft_eq, Nat.testBit_shiftLeft,
    Nat.testBit_shiftRight, BitVec.testBit_toNat, BitVec.getLsbD_and, BitVec.getLsbD_not,
    ← BitVec.testBit_toNat (m - 1), toNat_pred hm, Nat.testBit_two_pow_sub_one,
    ← BitVec.testBit_toNat x]
  by_cases hi : k ≤ i
  · have hge : ¬ i < k := by omega
    rw [decide_eq_true hi, decide_eq_false hge, Nat.add_sub_cancel' hi]
    by_cases hw : i < w
    · rw [decide_eq_true hw]
      simp
    · rw [BitVec.testBit_toNat, BitVec.getLsbD_of_ge x i (by omega)]
      rfl
  · have hlow : i < k := by omega
    rw [decide_eq_false hi, decide_eq_true hlow]
    simp

/-- **Rounding a word up** gives the multiple, as far as it fits. -/
theorem toNat_alignUp (x : BitVec w) (hm : m.toNat = 2 ^ k) :
    ((x + (m - 1)) &&& ~~~(m - 1)).toNat = alignUp x.toNat (2 ^ k) % 2 ^ w := by
  have hpos : 0 < 2 ^ k := Nat.two_pow_pos k
  have hkw : k < w := (Nat.pow_lt_pow_iff_right (Nat.lt_succ_self 1)).mp (hm ▸ m.isLt)
  have hpow : 2 ^ w = 2 ^ k * 2 ^ (w - k) := by
    rw [← Nat.pow_add, Nat.add_sub_cancel' hkw.le]
  have hsum : x.toNat + (2 ^ k - 1) = x.toNat + 2 ^ k - 1 := by omega
  rw [toNat_and_not_pred _ hm, BitVec.toNat_add, toNat_pred hm, hsum]
  unfold alignUp
  rw [hpow, Nat.mod_mul_right_div_self, Nat.mul_comm (2 ^ k) (2 ^ (w - k)), Nat.mul_mod_mul_right]

/-- A sum that may wrap around, of which one part is a multiple. -/
theorem dvd_toNat_add_iff {x y : BitVec w} (hk : k ≤ w) (hy : 2 ^ k ∣ y.toNat) :
    2 ^ k ∣ (x + y).toNat ↔ 2 ^ k ∣ x.toNat := by
  rw [BitVec.toNat_add, Nat.dvd_mod_iff (Nat.pow_dvd_pow 2 hk), Nat.dvd_add_left hy]

end Mask

end Word
