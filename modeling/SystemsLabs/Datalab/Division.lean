import SystemsLabs.Datalab.Bits
import SystemsLabs.Schemes.Word

/-! @lab datalab | file:bits.c | structure:shifts that round toward zero | scheme:word |
    main result:dividePower2_exact, trueThreeFourths_exact

    A right shift floors; adding `2^n - 1` to a negative number first makes it round toward zero. The
    bias is built from the sign without a subtraction. `trueThreeFourths` takes three quarters of the
    floored quotient and of the remainder apart: the remainder is never negative, so only the small sum
    is biased and no sum can leave the range. -/

namespace Labs.Datalab
open Schemes Schemes.Word

theorem lnot_lnot (y : BitVec 64) : lnot (lnot y) = if y = 0 then 0 else 1 := by
  rcases eq_or_ne y 0 with rfl | hne
  · decide
  · rw [lnot, lnot, if_neg hne, if_neg hne, if_pos rfl]

/-- The sign bit alone. -/
theorem sar_63 (x : BitVec 64) : x.sshiftRight 63 = if x.toInt < 0 then -1 else 0 := by
  have hlt := x.toInt_lt
  have hge := x.le_toInt
  apply BitVec.eq_of_toInt_eq
  rw [toInt_sar]
  split
  · change _ = (-1 : ℤ)
    omega
  · change _ = (0 : ℤ)
    omega

theorem sign_eq (x : BitVec 64) : sign x = if x.toInt < 0 then 1 else 0 := by
  rw [sign, lnot_lnot, sar_63]
  split
  · rw [if_neg (by decide)]
  · rw [if_pos (by decide)]

/-! ### Powers of two -/

section Power
variable {n : ℕ}

theorem toNat_one_shift (hn : n < 64) : (1#64 <<< n).toNat = 2 ^ n := by
  rw [← BitVec.twoPow_eq, BitVec.toNat_twoPow_of_lt hn]

theorem two_pow_le (hn : n ≤ 62) : 2 ^ n ≤ 2 ^ 62 := Nat.pow_le_pow_right (Nat.succ_pos 1) hn

theorem toInt_one_shift (hn : n ≤ 62) : (1#64 <<< n).toInt = 2 ^ n := by
  have hle := two_pow_le hn
  have hnat : (1#64 <<< n).toNat = 2 ^ n := toNat_one_shift (by omega)
  rw [BitVec.toInt_eq_toNat_of_lt (by rw [hnat]; omega), hnat]
  push_cast
  rfl

/-- Complement, increment and complement again is a decrement. -/
theorem toInt_bias (x : BitVec 64) (hn : n ≤ 62) :
    (bias x n).toInt = if x.toInt < 0 then 2 ^ n - 1 else 0 := by
  have hle := two_pow_le hn
  have hpos := Nat.two_pow_pos n
  have hnat : (1#64 <<< n).toNat = 2 ^ n := toNat_one_shift (by omega)
  rw [bias, sign_eq]
  split
  · have hdecrement : ~~~(~~~(1#64 <<< n) + 1#64) = 1#64 <<< n - 1#64 := by
      rw [← BitVec.neg_eq_not_add, BitVec.not_neg]
    have hsub : (1#64 <<< n - 1#64).toNat = 2 ^ n - 1 := by
      rw [BitVec.toNat_sub_of_le, hnat]
      · rfl
      · rw [BitVec.le_def, hnat]
        exact hpos
    change (~~~(~~~(1#64 <<< n) + 1#64)).toInt = _
    rw [hdecrement, BitVec.toInt_eq_toNat_of_lt (by rw [hsub]; omega), hsub, Int.natCast_sub hpos]
    push_cast
    rfl
  · simp

theorem biased_inRange (x : BitVec 64) (hn : n ≤ 62) : InRange 64 (x.toInt + (bias x n).toInt) := by
  have hlt := x.toInt_lt
  have hge := x.le_toInt
  have hle : (2 : ℤ) ^ n ≤ 2 ^ 62 := by exact_mod_cast two_pow_le hn
  have hpos : (0 : ℤ) < 2 ^ n := by exact_mod_cast Nat.two_pow_pos n
  rw [toInt_bias x hn, InRange]
  split
  · omega
  · omega

theorem toInt_dividePower2 {n : BitVec 64} (x : BitVec 64) (hn : n.toNat ≤ 62) :
    (dividePower2 x n).toInt = x.toInt.tdiv (2 ^ n.toNat) := by
  have hpos : (0 : ℤ) < 2 ^ n.toNat := by exact_mod_cast Nat.two_pow_pos n.toNat
  rw [dividePower2, toInt_sar, toInt_add_of_inRange (biased_inRange x hn), toInt_bias x hn,
    biased_ediv _ hpos]

/-- The quotient rounded toward zero, for every number, and the addition of the bias stays in range. -/
theorem dividePower2_exact (x n : BitVec 64) (hn : 0 ≤ n.toInt ∧ n.toInt ≤ 62) :
    (dividePower2 x n).toInt = x.toInt.tdiv (2 ^ n.toNat) ∧
    dividePower2 x n = test_dividePower2 x n ∧
    InRange 64 (x.toInt + (bias x n.toNat).toInt) := by
  have hle : n.toNat ≤ 62 := by
    have hlt := n.isLt
    rw [BitVec.toInt_eq_toNat_cond] at hn
    split at hn
    · omega
    · omega
  refine ⟨toInt_dividePower2 x hle, ?_, biased_inRange x hle⟩
  have hne : 1#64 <<< n.toNat ≠ -1#64 := by
    intro heq
    have hpow := toInt_one_shift hle
    have hpos : (0 : ℤ) < 2 ^ n.toNat := by exact_mod_cast Nat.two_pow_pos n.toNat
    rw [← hpow, heq] at hpos
    exact absurd hpos (by decide)
  apply BitVec.eq_of_toInt_eq
  rw [toInt_dividePower2 x hle, test_dividePower2, BitVec.toInt_sdiv_of_ne_or_ne _ _ (Or.inr hne),
    toInt_one_shift hle]

/-- The least number, by the greatest power. -/
theorem dividePower2_exact_least : dividePower2 (BitVec.intMin 64) 62 = -2#64 :=
  BitVec.eq_of_toInt_eq (dividePower2_exact (BitVec.intMin 64) 62 (by decide)).1

end Power

/-! ### Three quarters -/

/-- The remainder: never negative. -/
theorem toInt_and_three (x : BitVec 64) : (x &&& 0x03).toInt = x.toInt % 4 := by
  have hnat : (x &&& 0x03).toNat = x.toNat % 4 := by
    rw [BitVec.toNat_and]
    exact Nat.and_two_pow_sub_one_eq_mod x.toNat 2
  have hlt : x.toNat % 4 < 4 := Nat.mod_lt _ (Nat.succ_pos 3)
  rw [BitVec.toInt_eq_toNat_cond, BitVec.toInt_eq_toNat_cond, hnat]
  split
  · split
    · omega
    · omega
  · omega

theorem bias_two (x : BitVec 64) : (bias x 2).toInt = if x.toInt < 0 then 3 else 0 := by
  rw [toInt_bias x (Nat.le_add_left 2 60)]
  rfl

/-- The second value of `mod`. -/
def threeFourthsMod (x : BitVec 64) : BitVec 64 :=
  let mod := x &&& 0x03
  (mod + mod + mod + bias x 2).sshiftRight 2

/-- What is added to the first operand of the sum that gives it, from left to right. -/
def modSum (x : BitVec 64) : List (BitVec 64) := [x &&& 0x03, x &&& 0x03, bias x 2]

/-- What is added to the first operand of the result. -/
def resultSum (x : BitVec 64) : List (BitVec 64) :=
  [x.sshiftRight 2, x.sshiftRight 2, threeFourthsMod x]

section ThreeFourths
variable (x : BitVec 64)

theorem modSum_inRange : NoOverflow (x &&& 0x03).toInt (modSum x) := by
  simp only [modSum, NoOverflow, InRange, toInt_and_three, bias_two]
  refine ⟨?_, ?_, ?_, trivial⟩
  · omega
  · omega
  · split <;> omega

/-- Three quarters of the remainder, rounded up for negative numbers. -/
theorem toInt_threeFourthsMod : (threeFourthsMod x).toInt =
    (3 * (x.toInt % 4) + if x.toInt < 0 then 3 else 0) / 4 := by
  rw [threeFourthsMod, toInt_sar, (modSum_inRange x).toInt_sum, toInt_and_three, bias_two]
  omega

theorem resultSum_inRange : NoOverflow (x.sshiftRight 2).toInt (resultSum x) := by
  have hlt := x.toInt_lt
  have hge := x.le_toInt
  simp only [resultSum, NoOverflow, InRange, toInt_sar, toInt_threeFourthsMod]
  refine ⟨?_, ?_, ?_, trivial⟩
  · omega
  · omega
  · split <;> omega

theorem trueThreeFourths_sum :
    trueThreeFourths x = (resultSum x).foldl (· + ·) (x.sshiftRight 2) := by
  rw [trueThreeFourths, resultSum, threeFourthsMod]
  rfl

theorem toInt_trueThreeFourths : (trueThreeFourths x).toInt =
    3 * (x.toInt / 4) + (3 * (x.toInt % 4) + if x.toInt < 0 then 3 else 0) / 4 := by
  have hparts : trueThreeFourths x =
      x.sshiftRight 2 + x.sshiftRight 2 + x.sshiftRight 2 + threeFourthsMod x := trueThreeFourths_sum x
  rw [hparts, (resultSum_inRange x).toInt_sum, toInt_sar, toInt_threeFourthsMod]
  omega

/-- Floored quotient and biased remainder together are the quotient rounded toward zero. -/
theorem tdiv_three_fourths (z : ℤ) :
    3 * (z / 4) + (3 * (z % 4) + if z < 0 then 3 else 0) / 4 = (3 * z).tdiv 4 := by
  by_cases hneg : z < 0
  · have hflip : (3 * z).tdiv 4 = -((3 * -z) / 4) := by
      rw [← Int.tdiv_eq_ediv_of_nonneg (by omega), Int.mul_neg, Int.neg_tdiv, Int.neg_neg]
    rw [hflip, if_pos hneg]
    omega
  · rw [Int.tdiv_eq_ediv_of_nonneg (by omega), if_neg hneg]
    omega

/-- Three quarters rounded toward zero, for every number. The result is one sum and the second value
    of `mod` is the shift of another, and neither overflows on the way. -/
theorem trueThreeFourths_exact : (trueThreeFourths x).toInt = (3 * x.toInt).tdiv 4 ∧
    trueThreeFourths x = test_trueThreeFourths x ∧
    trueThreeFourths x = (resultSum x).foldl (· + ·) (x.sshiftRight 2) ∧
    threeFourthsMod x = ((modSum x).foldl (· + ·) (x &&& 0x03)).sshiftRight 2 ∧
    NoOverflow (x &&& 0x03).toInt (modSum x) ∧ NoOverflow (x.sshiftRight 2).toInt (resultSum x) := by
  have hval : (trueThreeFourths x).toInt = (3 * x.toInt).tdiv 4 := by
    rw [toInt_trueThreeFourths, tdiv_three_fourths]
  refine ⟨hval, ?_, trueThreeFourths_sum x, rfl, modSum_inRange x, resultSum_inRange x⟩
  rw [test_trueThreeFourths, Int.mul_comm, ← hval, BitVec.ofInt_toInt]

end ThreeFourths

end Labs.Datalab
