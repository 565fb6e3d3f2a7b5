/-
  Rounding a 64-bit word up to a power of two, as allocators compute it:
  `(x + a - 1) & ~(a - 1)` in wrapping arithmetic.

  `roundUp` is the same rounding on the natural numbers. The word computed is the rounded
  number modulo 2^64 (`toNat_alignUp`), so the two differ in one case only: the rounded number
  is 2^64 and the word is zero.
-/
import Mathlib.Data.BitVec

namespace NeuroVerse.Lib

/-- A 64-bit power of two. -/
structure PowTwo where
  val : BitVec 64
  log : Nat
  log_lt : log < 64
  toNat_val : val.toNat = 2 ^ log

/-- The least multiple of `a` that is at least `x`. -/
def roundUp (x a : Nat) : Nat := (x + a - 1) / a * a

/-- `(x + a - 1) & ~(a - 1)`. -/
def alignUp (x a : BitVec 64) : BitVec 64 := (x + a - 1) &&& ~~~(a - 1)

theorem PowTwo.pos (a : PowTwo) : 0 < a.val.toNat := by
  rw [a.toNat_val]
  exact Nat.two_pow_pos a.log

theorem PowTwo.dvd_two_pow (a : PowTwo) : a.val.toNat ∣ 2 ^ 64 := by
  rw [a.toNat_val]
  exact Nat.pow_dvd_pow 2 (Nat.le_of_lt a.log_lt)

theorem le_roundUp (x : Nat) {a : Nat} (ha : 0 < a) : x ≤ roundUp x a := by
  have hdiv := Nat.div_add_mod (x + a - 1) a
  have hmod := Nat.mod_lt (x + a - 1) ha
  rw [Nat.mul_comm] at hdiv
  unfold roundUp
  omega

theorem dvd_roundUp (x a : Nat) : a ∣ roundUp x a := Nat.dvd_mul_left a _

/-- Rounding does not pass a multiple. -/
theorem roundUp_le {x y a : Nat} (ha : 0 < a) (hxy : x ≤ y) (hy : a ∣ y) : roundUp x a ≤ y := by
  obtain ⟨c, rfl⟩ := hy
  have hlt : (x + a - 1) / a < c + 1 := by
    rw [Nat.div_lt_iff_lt_mul ha, Nat.add_mul, Nat.mul_comm c a]
    omega
  unfold roundUp
  rw [Nat.mul_comm a c]
  exact Nat.mul_le_mul_right a (Nat.le_of_lt_succ hlt)

/-- Clearing the low `k` bits. -/
theorem and_not_mask (x m : BitVec 64) {k : Nat} (hm : m.toNat = 2 ^ k - 1) :
    x &&& ~~~m = (x >>> k) <<< k := by
  apply BitVec.eq_of_getLsbD_eq
  intro i hi
  have hbit : m.getLsbD i = decide (i < k) := by
    rw [← BitVec.testBit_toNat, hm, Nat.testBit_two_pow_sub_one]
  rw [BitVec.getLsbD_and, BitVec.getLsbD_not, hbit, BitVec.getLsbD_shiftLeft,
    BitVec.getLsbD_ushiftRight]
  by_cases hik : i < k
  · simp [hik]
  · have hadd : k + (i - k) = i := by omega
    simp [hi, hik, hadd]

theorem toNat_and_not_mask (x m : BitVec 64) {k : Nat} (hm : m.toNat = 2 ^ k - 1) :
    (x &&& ~~~m).toNat = x.toNat / 2 ^ k * 2 ^ k := by
  have hle : x.toNat / 2 ^ k * 2 ^ k ≤ x.toNat := Nat.div_mul_le_self _ _
  have hlt := x.isLt
  rw [and_not_mask x m hm, BitVec.toNat_shiftLeft, BitVec.toNat_ushiftRight,
    Nat.shiftRight_eq_div_pow, Nat.shiftLeft_eq, Nat.mod_eq_of_lt (by omega)]

/-- The word computed is the rounded number, modulo 2^64. -/
theorem toNat_alignUp (x : BitVec 64) (a : PowTwo) :
    (alignUp x a.val).toNat = roundUp x.toNat a.val.toNat % 2 ^ 64 := by
  have hpos := a.pos
  have hmask : (a.val - 1).toNat = 2 ^ a.log - 1 := by
    rw [← a.toNat_val, BitVec.toNat_sub_of_le (by rw [BitVec.le_def]; exact hpos)]
    rfl
  have hsum : (x + a.val - 1).toNat = (x.toNat + a.val.toNat - 1) % 2 ^ 64 := by
    have hx := x.isLt
    have ha := a.val.isLt
    rw [BitVec.toNat_sub, BitVec.toNat_add, show (1 : BitVec 64).toNat = 1 from rfl]
    omega
  have hsplit : (2 : Nat) ^ 64 = 2 ^ a.log * 2 ^ (64 - a.log) := by
    rw [← Nat.pow_add]
    have hlog := a.log_lt
    congr 1
    omega
  rw [alignUp, toNat_and_not_mask _ _ hmask, hsum, roundUp, a.toNat_val, hsplit,
    Nat.mod_mul_right_div_self, ← Nat.mul_mod_mul_right, Nat.mul_comm (2 ^ (64 - a.log))]

end NeuroVerse.Lib
