import Mathlib.Data.List.Basic
import Mathlib.Data.Int.Notation
import Mathlib.Algebra.Group.Int.Defs
import Mathlib.Algebra.Group.Nat.Defs
import Mathlib.Data.Nat.Bitwise
import Mathlib.Tactic.Common

/-! @scheme word | structure:two's complement words | used by:bit puzzles

    A word of `w` bits read as a signed number. A sum whose partial sums all stay in the signed range
    is the sum of the numbers, so that "no addition overflows" is a statement about the operands. A
    right shift with sign extension floors; under a mask that has none of the top bits it is the
    shift without. -/

namespace Schemes
namespace Word
variable {w n : ℕ} {a b x : BitVec w}

/-- The signed numbers of `w` bits. -/
def InRange (w : ℕ) (z : ℤ) : Prop := -(2 ^ (w - 1)) ≤ z ∧ z < 2 ^ (w - 1)

/-- Added to `z` one after the other, the words overflow nowhere. -/
def NoOverflow : ℤ → List (BitVec w) → Prop
  | _, [] => True
  | z, b :: l => InRange w (z + b.toInt) ∧ NoOverflow (z + b.toInt) l

theorem toInt_add_of_inRange (h : InRange w (a.toInt + b.toInt)) :
    (a + b).toInt = a.toInt + b.toInt := by
  rw [BitVec.toInt_add]
  rcases Nat.eq_zero_or_pos w with rfl | hw
  · simp [BitVec.eq_nil a, BitVec.eq_nil b]
  · have hpow : (2 : ℤ) ^ w = 2 * 2 ^ (w - 1) := by
      rw [mul_comm, ← pow_succ, Nat.sub_add_cancel hw]
    obtain ⟨hle, hlt⟩ := h
    apply Int.bmod_eq_of_le
    · push_cast
      omega
    · push_cast
      omega

/-- A sum without overflow is the sum of the numbers. -/
theorem NoOverflow.toInt_sum {a b c d : BitVec w} (h : NoOverflow a.toInt [b, c, d]) :
    (a + b + c + d).toInt = a.toInt + b.toInt + c.toInt + d.toInt := by
  obtain ⟨h₁, h₂, h₃, -⟩ := h
  have hab := toInt_add_of_inRange h₁
  rw [← hab] at h₂ h₃
  have habc := toInt_add_of_inRange h₂
  rw [← habc] at h₃
  rw [toInt_add_of_inRange h₃, habc, hab]

/-- The shift with sign extension floors. -/
theorem toInt_sar (x : BitVec w) (n : ℕ) : (x.sshiftRight n).toInt = x.toInt / 2 ^ n := by
  rw [BitVec.toInt_sshiftRight, Int.shiftRight_eq_div_pow]
  push_cast
  rfl

/-- Flooring after `P - 1` has been added to a negative number rounds toward zero. -/
theorem biased_ediv (z : ℤ) {P : ℤ} (hP : 0 < P) :
    (z + if z < 0 then P - 1 else 0) / P = z.tdiv P := by
  by_cases hneg : z < 0
  · have hdiv := Int.mul_ediv_add_emod (-z) P
    have hnonneg := Int.emod_nonneg (-z) (Int.ne_of_gt hP)
    have hlt := Int.emod_lt_of_pos (-z) hP
    have hflip : z.tdiv P = -(-z / P) := by
      rw [← Int.tdiv_eq_ediv_of_nonneg (by omega), Int.neg_tdiv, Int.neg_neg]
    -- What is missing to the next multiple is the new remainder.
    have hsplit : P - 1 - -z % P + P * -(-z / P) = z + (P - 1) := by
      rw [Int.mul_neg]
      omega
    rw [if_pos hneg, hflip]
    exact ((Int.ediv_emod_unique hP).mpr ⟨hsplit, by omega, by omega⟩).1
  · rw [if_neg hneg, Int.add_zero, Int.tdiv_eq_ediv_of_nonneg (by omega)]

/-- Under a mask without the top `n` bits the two right shifts agree. -/
theorem sar_and {m : BitVec w} (hm : m.toNat < 2 ^ (w - n)) :
    x.sshiftRight n &&& m = x >>> n &&& m := by
  apply BitVec.eq_of_getLsbD_eq
  intro i hi
  rw [BitVec.getLsbD_and, BitVec.getLsbD_and, BitVec.getLsbD_sshiftRight, BitVec.getLsbD_ushiftRight]
  rcases Nat.lt_or_ge (n + i) w with hlt | hge
  · have hlow : ¬ w ≤ i := Nat.not_le.mpr hi
    simp [hlt, hlow]
  · have htop : m.getLsbD i = false := by
      rw [BitVec.getLsbD, Nat.testBit_lt_two_pow]
      exact Nat.lt_of_lt_of_le hm (Nat.pow_le_pow_right (by omega) (by omega))
    simp [htop]

/-- One bit under its mask. -/
theorem and_two_pow_ne_zero (n i : ℕ) : n &&& 2 ^ i ≠ 0 ↔ n / 2 ^ i % 2 = 1 := by
  rw [Nat.and_two_pow, Nat.testBit_eq_decide_div_mod_eq]
  rcases Nat.mod_two_eq_zero_or_one (n / 2 ^ i) with h | h
  · simp [h]
  · simp [h]

/-- One bit, brought down to the lowest place. -/
theorem sar_and_one {i : ℕ} (hi : i < w) :
    x.sshiftRight i &&& 1#w = BitVec.ofNat w (x.getLsbD i).toNat := by
  have hone : (1#w).toNat = 1 := by
    rw [BitVec.toNat_ofNat, Nat.mod_eq_of_lt (Nat.one_lt_two_pow (by omega))]
  have hroom : (1#w).toNat < 2 ^ (w - i) := by
    rw [hone]
    exact Nat.one_lt_two_pow (by omega)
  rw [sar_and hroom]
  apply BitVec.eq_of_toNat_eq
  rw [BitVec.toNat_and, BitVec.toNat_ushiftRight, hone, Nat.and_one_is_mod, BitVec.toNat_ofNat,
    BitVec.getLsbD, Nat.testBit_eq_decide_div_mod_eq, Nat.shiftRight_eq_div_pow]
  rcases Nat.mod_two_eq_zero_or_one (x.toNat / 2 ^ i) with h | h
  · simp [h]
  · simp [h, Nat.mod_eq_of_lt (Nat.one_lt_two_pow (Nat.ne_of_gt (Nat.zero_lt_of_lt hi)))]

end Word
end Schemes
