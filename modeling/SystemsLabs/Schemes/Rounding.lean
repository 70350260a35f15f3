import Mathlib.Algebra.Order.Field.Power
import Mathlib.Algebra.Order.Field.Rat
import Mathlib.Algebra.Ring.Parity
import Mathlib.Tactic.Linarith
import Mathlib.Tactic.NormNum
import Mathlib.Tactic.Ring

/-! @scheme rounding | structure:nearest multiple, ties to even | used by:conversions to floating point

    A natural number is rounded to a multiple of a step by its remainder. The numbers whose significand
    has `p` bits are the multiples of `2^s` in the binade of the number and a finer grid below it, and
    what lies below the binade is further away than its first number, so rounding to the multiples of
    `2^s` is rounding to `p` bits. -/

namespace Schemes
variable {n P p s : ℕ} {x y : ℚ}

/-- `n / P` rounded to nearest, ties to even. -/
def roundEven (n P : ℕ) : ℕ :=
  if P < 2 * (n % P) ∨ (P = 2 * (n % P) ∧ n / P % 2 = 1) then n / P + 1 else n / P

/-! ### On the multiples of the step -/

section Grid

theorem le_roundEven (n P : ℕ) : n / P ≤ roundEven n P := by
  rw [roundEven]
  split
  · exact Nat.le_succ _
  · exact Nat.le_refl _

theorem roundEven_le (n P : ℕ) : roundEven n P ≤ n / P + 1 := by
  rw [roundEven]
  split
  · exact Nat.le_refl _
  · exact Nat.le_succ _

/-- Up if the first bit dropped is set and so is a later one or the last one kept. -/
theorem roundEven_bits (n d : ℕ) : roundEven n (2 ^ (d + 1)) =
    if (n / 2 ^ d % 2 = 1 ∧ n % 2 ^ d ≠ 0) ∨ (n / 2 ^ d % 2 = 1 ∧ n / 2 ^ (d + 1) % 2 = 1) then
      n / 2 ^ (d + 1) + 1
    else n / 2 ^ (d + 1) := by
  have hlow := Nat.mod_lt n (Nat.two_pow_pos d)
  rw [roundEven, Nat.mod_pow_succ, pow_succ]
  generalize n / (2 ^ d * 2) = q
  generalize n % 2 ^ d = low at hlow ⊢
  generalize 2 ^ d = half at hlow ⊢
  rcases Nat.mod_two_eq_zero_or_one (n / half) with hclear | hset
  · rw [hclear, Nat.mul_zero, Nat.add_zero, if_neg (by omega), if_neg (by omega)]
  · have hdrop : half * 2 < 2 * (low + half * 1) ∨ half * 2 = 2 * (low + half * 1) ∧ q % 2 = 1 ↔
        (1 = 1 ∧ low ≠ 0) ∨ (1 = 1 ∧ q % 2 = 1) := by omega
    rw [hset, if_congr hdrop rfl rfl]

/-- The distance is that to the nearer neighbour. -/
theorem roundEven_dist (hP : 0 < P) :
    |(n : ℤ) - roundEven n P * P| = min (n % P : ℤ) (P - n % P) := by
  have hdiv : (P : ℤ) * (n / P : ℕ) + (n % P : ℕ) = n := by exact_mod_cast Nat.div_add_mod n P
  have hlt := Nat.mod_lt n hP
  rw [← Int.natCast_mod, roundEven]
  generalize n / P = q at hdiv ⊢
  generalize n % P = r at hdiv hlt ⊢
  split
  · have hsub : (n : ℤ) - ((q + 1 : ℕ) : ℤ) * P = -(P - r) := by
      push_cast
      linarith
    rw [hsub, abs_neg, abs_of_pos (by omega), min_eq_right (by omega)]
  · have hsub : (n : ℤ) - (q : ℤ) * P = r := by linarith
    rw [hsub, abs_of_nonneg (by omega), min_eq_left (by omega)]

theorem grid_dist (hP : 0 < P) (j : ℤ) : min (n % P : ℤ) (P - n % P) ≤ |(n : ℤ) - j * P| := by
  have hdiv := Int.mul_ediv_add_emod n P
  have hnonneg := Int.emod_nonneg n (Int.natCast_ne_zero.mpr hP.ne')
  generalize (n : ℤ) / P = q at hdiv
  generalize (n : ℤ) % P = r at hdiv hnonneg ⊢
  have hsub : (n : ℤ) - j * P = r + (q - j) * P := by linarith
  rw [hsub]
  rcases le_or_gt j q with hle | hgt
  · have hmul : 0 ≤ (q - j) * P := mul_nonneg (by omega) (by omega)
    exact (min_le_left _ _).trans ((by omega : r ≤ r + (q - j) * P).trans (le_abs_self _))
  · have hmul : 0 ≤ (j - q - 1) * P := mul_nonneg (by omega) (by omega)
    have hneg : (P : ℤ) - r ≤ -(r + (q - j) * P) := by linarith
    exact (min_le_right _ _).trans (hneg.trans (neg_le_abs _))

/-- Two multiples at the same least distance lie on both sides of the middle. -/
theorem roundEven_tie (hP : 0 < P) {j : ℤ} (hne : j ≠ roundEven n P)
    (hdist : |(n : ℤ) - j * P| = |(n : ℤ) - roundEven n P * P|) : Even (roundEven n P) := by
  have hlt := Nat.mod_lt n hP
  have hdiv : (P : ℤ) * (n / P : ℕ) + (n % P : ℕ) = n := by exact_mod_cast Nat.div_add_mod n P
  -- The middle of the two multiples is the number itself.
  have hmid : 2 * (n : ℤ) = (j + roundEven n P) * P := by
    rcases abs_eq_abs.mp hdist with heq | heq
    · have hmul : j * (P : ℤ) = roundEven n P * P := by linarith
      exact absurd (mul_right_cancel₀ (Int.natCast_ne_zero.mpr hP.ne') hmul) hne
    · linarith
  -- So twice the remainder is a multiple of the step, and the remainder is not 0.
  have hrem : (2 * (n % P : ℕ) : ℤ) = (j + roundEven n P - 2 * (n / P : ℕ)) * P := by linarith
  have hhalf : 2 * (n % P) = P := by
    have hupper : j + roundEven n P - 2 * (n / P : ℕ) < 2 := by
      by_contra hge
      have := mul_le_mul_of_nonneg_right (not_lt.mp hge) (Int.natCast_nonneg P)
      omega
    have hlower : 0 ≤ j + roundEven n P - 2 * (n / P : ℕ) := by
      by_contra hneg
      have := mul_le_mul_of_nonneg_right (Int.le_sub_one_of_lt (not_le.mp hneg)) (Int.natCast_nonneg P)
      omega
    have hcases : j + roundEven n P - 2 * (n / P : ℕ) = 0 ∨ j + roundEven n P - 2 * (n / P : ℕ) = 1 := by
      omega
    rcases hcases with hzero | hone
    · rw [hzero, zero_mul] at hrem
      have hdown : roundEven n P = n / P := by
        rw [roundEven, if_neg (by omega)]
      omega
    · rw [hone, one_mul] at hrem
      omega
  rw [roundEven, Nat.even_iff]
  split
  · omega
  · omega

end Grid

/-! ### On the numbers with a short significand -/

/-- `y` has a significand of at most `p` bits; the exponent is not bounded. -/
def Significant (p : ℕ) (y : ℚ) : Prop := ∃ m k : ℤ, |m| < 2 ^ p ∧ y = m * 2 ^ k

/-- `v` is one of them, and none is nearer to `x`. -/
def Nearest (p : ℕ) (x v : ℚ) : Prop :=
  Significant p v ∧ ∀ y, Significant p y → |x - v| ≤ |x - y|

theorem significant_natCast (hn : n < 2 ^ p) : Significant p n :=
  ⟨n, 0, by rw [abs_of_nonneg (Int.natCast_nonneg n)]; exact_mod_cast hn, by simp⟩

theorem nearest_natCast (hn : n < 2 ^ p) : Nearest p n n :=
  ⟨significant_natCast hn, fun y _ => by simp⟩

/-- The next power of two has a short significand too. -/
theorem significant_mul {t : ℕ} (ht : t ≤ 2 ^ (p + 1)) (k : ℤ) : Significant (p + 1) (t * 2 ^ k) := by
  rcases Nat.lt_or_eq_of_le ht with hlt | rfl
  · exact ⟨t, k, by rw [abs_of_nonneg (Int.natCast_nonneg t)]; exact_mod_cast hlt, by simp⟩
  · refine ⟨2 ^ p, k + 1, ?_, ?_⟩
    · rw [abs_of_nonneg (by positivity)]
      exact pow_lt_pow_right₀ (by norm_num) (Nat.lt_succ_self p)
    · rw [zpow_add_one₀ (by norm_num)]
      push_cast
      ring

/-- From the binade that starts with `2^p * 2^s` on, only the multiples of `2^s`. -/
theorem Significant.grid_or_below (h : Significant (p + 1) y) (s : ℕ) :
    (∃ j : ℤ, y = j * 2 ^ s) ∨ y < 2 ^ p * 2 ^ s := by
  obtain ⟨m, k, hm, rfl⟩ := h
  rcases le_or_gt (s : ℤ) k with hge | hlt
  · obtain ⟨d, rfl⟩ := Int.le.dest hge
    refine Or.inl ⟨m * 2 ^ d, ?_⟩
    rw [zpow_add₀ (by norm_num), zpow_natCast, zpow_natCast]
    push_cast
    ring
  · refine Or.inr ?_
    have hpos : (0 : ℚ) < 2 ^ k := zpow_pos (by norm_num) k
    have hmq : (m : ℚ) < 2 ^ (p + 1) := by exact_mod_cast (abs_lt.mp hm).2
    have hexp : (2 : ℚ) ^ (k + 1) ≤ 2 ^ s := by
      rw [← zpow_natCast]
      exact zpow_le_zpow_right₀ (by norm_num) (by omega)
    calc (m : ℚ) * 2 ^ k < 2 ^ (p + 1) * 2 ^ k := mul_lt_mul_of_pos_right hmq hpos
      _ = 2 ^ p * 2 ^ (k + 1) := by rw [zpow_add_one₀ (by norm_num)]; ring
      _ ≤ 2 ^ p * 2 ^ s := mul_le_mul_of_nonneg_left hexp (by positivity)

theorem cast_dist (n : ℕ) (j : ℤ) (s : ℕ) :
    |(n : ℚ) - j * 2 ^ s| = (|(n : ℤ) - j * (2 ^ s : ℕ)| : ℤ) := by
  push_cast
  rfl

variable (hlow : 2 ^ p * 2 ^ s ≤ n)
include hlow

/-- What lies below the binade of `n` is further away than the rounded value. -/
theorem below_dist (hy : y < 2 ^ p * 2 ^ s) :
    |(n : ℚ) - (roundEven n (2 ^ s) : ℤ) * 2 ^ s| < |(n : ℚ) - y| := by
  have hfirst : |(n : ℚ) - ((2 ^ p : ℕ) : ℤ) * 2 ^ s| = n - 2 ^ p * 2 ^ s := by
    have hcast : (2 ^ p * 2 ^ s : ℚ) ≤ n := by exact_mod_cast hlow
    push_cast
    exact abs_of_nonneg (sub_nonneg.mpr hcast)
  have hnearest : |(n : ℚ) - (roundEven n (2 ^ s) : ℤ) * 2 ^ s| ≤ n - 2 ^ p * 2 ^ s := by
    rw [← hfirst, cast_dist, cast_dist, roundEven_dist (Nat.two_pow_pos s)]
    exact Int.cast_le.mpr (grid_dist (Nat.two_pow_pos s) _)
  calc _ ≤ (n : ℚ) - 2 ^ p * 2 ^ s := hnearest
    _ < n - y := sub_lt_sub_left hy _
    _ ≤ |(n : ℚ) - y| := le_abs_self _

/-- Nothing with as short a significand is nearer. -/
theorem roundEven_nearest (hhigh : roundEven n (2 ^ s) ≤ 2 ^ (p + 1)) :
    Nearest (p + 1) n (roundEven n (2 ^ s) * 2 ^ s) := by
  refine ⟨by simpa using significant_mul hhigh s, fun y hy => ?_⟩
  rw [← Int.cast_natCast (roundEven n (2 ^ s))]
  rcases hy.grid_or_below s with ⟨j, rfl⟩ | hbelow
  · rw [cast_dist, cast_dist, roundEven_dist (Nat.two_pow_pos s)]
    exact Int.cast_le.mpr (grid_dist (Nat.two_pow_pos s) j)
  · exact (below_dist hlow hbelow).le

/-- Where something else is as near, the rounded multiple is even. -/
theorem roundEven_even (hy : Significant (p + 1) y) (hne : y ≠ roundEven n (2 ^ s) * 2 ^ s)
    (hdist : |(n : ℚ) - y| = |(n : ℚ) - roundEven n (2 ^ s) * 2 ^ s|) :
    Even (roundEven n (2 ^ s)) := by
  rw [← Int.cast_natCast (roundEven n (2 ^ s))] at hne hdist
  rcases hy.grid_or_below s with ⟨j, rfl⟩ | hbelow
  · rw [cast_dist, cast_dist, Int.cast_inj] at hdist
    refine roundEven_tie (Nat.two_pow_pos s) (fun heq => hne ?_) hdist
    rw [heq]
  · exact absurd hdist (below_dist hlow hbelow).ne'

end Schemes
