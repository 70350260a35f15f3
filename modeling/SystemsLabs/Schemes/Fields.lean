import Mathlib.Algebra.BigOperators.Group.Finset.Basic
import Mathlib.Algebra.Order.Ring.Nat
import Mathlib.Data.Nat.Bitwise
import Mathlib.Tactic.Ring

/-! @scheme fields | structure:numbers as packed fields of bits | used by:bit puzzles

    `pack w n c` has the `n` fields `c 0, c 1, …` of `w` bits each, the first one lowest. Adding a
    number to itself shifted by a field, both under the mask of the even fields, adds the fields in
    pairs: each pair gets twice the room, so whatever the fields are no sum runs into the next one. -/

namespace Schemes

/-- Number with the fields `c 0`, …, `c (n - 1)` of `w` bits. -/
def pack (w : ℕ) : ℕ → (ℕ → ℕ) → ℕ
  | 0, _ => 0
  | n + 1, c => c 0 + 2 ^ w * pack w n fun i => c (i + 1)

/-- The low `w` bits of each of `n` fields of `2 * w` bits. -/
def evenMask (w n : ℕ) : ℕ := pack (2 * w) n fun _ => 2 ^ w - 1

section Pack
variable {w n k a b x y : ℕ} {c d : ℕ → ℕ}

theorem pack_lt (h : ∀ i < n, c i < 2 ^ w) : pack w n c < 2 ^ (w * n) := by
  induction n generalizing c with
  | zero => simp [pack]
  | succ n ih =>
    have hfirst := h 0 (Nat.succ_pos n)
    have hrest := ih fun i hi => h (i + 1) (Nat.succ_lt_succ hi)
    have hmul : 2 ^ w * (pack w n (fun i => c (i + 1)) + 1) ≤ 2 ^ w * 2 ^ (w * n) :=
      Nat.mul_le_mul_left _ hrest
    rw [pack, Nat.mul_succ, pow_add, Nat.mul_comm (2 ^ (w * n))]
    rw [Nat.mul_succ] at hmul
    omega

/-- Bits below and above a boundary do not meet. -/
theorem and_split (ha : a < 2 ^ k) (hb : b < 2 ^ k) :
    (2 ^ k * x + a) &&& (2 ^ k * y + b) = 2 ^ k * (x &&& y) + (a &&& b) := by
  refine Nat.eq_of_testBit_eq fun i => ?_
  simp only [Nat.testBit_and, Nat.testBit_two_pow_mul_add, ha, hb, Nat.and_lt_two_pow a hb]
  by_cases hi : i < k
  · simp only [hi, if_true]
  · simp only [hi, if_false]

/-- The low field of a pair. -/
theorem and_low (ha : a < 2 ^ w) (x : ℕ) : (a + 2 ^ w * x) &&& (2 ^ w - 1) = a := by
  rw [Nat.and_two_pow_sub_one_eq_mod, Nat.add_mul_mod_self_left, Nat.mod_eq_of_lt ha]

theorem mask_lt (w : ℕ) : 2 ^ w - 1 < 2 ^ (2 * w) := by
  have hpos := Nat.two_pow_pos w
  have hle : 2 ^ w ≤ 2 ^ (2 * w) := Nat.pow_le_pow_right (Nat.succ_pos 1) (by omega)
  omega

/-- The mask drops the high field of the first pair and goes on behind it. -/
theorem and_evenMask (ha : a < 2 ^ w) (hb : b < 2 ^ w) (x : ℕ) :
    (a + 2 ^ w * b + 2 ^ (2 * w) * x) &&& evenMask w (n + 1) =
      a + 2 ^ (2 * w) * (x &&& evenMask w n) := by
  have hpair : a + 2 ^ w * b < 2 ^ (2 * w) := by
    have hmul : 2 ^ w * (b + 1) ≤ 2 ^ w * 2 ^ w := Nat.mul_le_mul_left _ hb
    rw [two_mul, pow_add]
    rw [Nat.mul_succ] at hmul
    omega
  rw [evenMask, pack, Nat.add_comm _ (2 ^ (2 * w) * x), Nat.add_comm (2 ^ w - 1),
    and_split hpair (mask_lt w), and_low ha, Nat.add_comm]
  rfl

/-- A round: fields of `w` bits become fields of `2 * w` bits that hold the sums of the pairs. -/
theorem pack_addPairs (h : ∀ i < 2 * n, c i < 2 ^ w) :
    (pack w (2 * n) c &&& evenMask w n) + (pack w (2 * n) c / 2 ^ w &&& evenMask w n) =
      pack (2 * w) n fun i => c (2 * i) + c (2 * i + 1) := by
  induction n generalizing c with
  | zero => simp [pack]
  | succ n ih =>
    have h₀ := h 0 (by omega)
    have h₁ := h 1 (by omega)
    have hrest := ih (c := fun i => c (i + 2)) fun i hi => h (i + 2) (by omega)
    -- The two fields of the first pair, and the others shifted by a pair.
    have hword : pack w (2 * (n + 1)) c =
        c 0 + 2 ^ w * c 1 + 2 ^ (2 * w) * pack w (2 * n) fun i => c (i + 2) := by
      rw [Nat.mul_succ, pack, pack, two_mul w, pow_add]
      ring
    have hshift : pack w (2 * (n + 1)) c / 2 ^ w = c 1 +
        2 ^ w * (pack w (2 * n) (fun i => c (i + 2)) % 2 ^ w) +
        2 ^ (2 * w) * (pack w (2 * n) (fun i => c (i + 2)) / 2 ^ w) := by
      rw [hword, two_mul w, pow_add, Nat.mul_assoc, Nat.add_assoc, ← Nat.mul_add,
        Nat.add_mul_div_left _ _ (Nat.two_pow_pos w), Nat.div_eq_of_lt h₀, Nat.zero_add,
        Nat.mul_assoc, Nat.add_assoc, ← Nat.mul_add, Nat.mod_add_div]
    rw [hshift, hword, and_evenMask h₀ h₁, and_evenMask h₁ (Nat.mod_lt _ (Nat.two_pow_pos w)), pack]
    have hsum : ∀ u v : ℕ, c 0 + 2 ^ (2 * w) * u + (c 1 + 2 ^ (2 * w) * v) =
        c 0 + c 1 + 2 ^ (2 * w) * (u + v) := fun u v => by ring
    rw [hsum, hrest]
    rfl

/-- A number is packed of its bits. -/
theorem pack_bits (n x : ℕ) : pack 1 n (fun i => (x.testBit i).toNat) = x % 2 ^ n := by
  induction n generalizing x with
  | zero => simp [pack, Nat.mod_one]
  | succ n ih =>
    have hshift : (fun i => (x.testBit (i + 1)).toNat) = fun i => ((x / 2).testBit i).toNat := by
      funext i
      rw [Nat.testBit_add_one]
    rw [pack, hshift, ih, Nat.testBit_zero, pow_one, Nat.pow_succ', Nat.mod_mul]
    congr 1
    rcases Nat.mod_two_eq_zero_or_one x with h | h <;> simp [h]

end Pack

/-! ### Sums over blocks -/

/-- How many of `w` consecutive places from `lo` on hold. -/
def ones (p : ℕ → Bool) (lo w : ℕ) : ℕ := ∑ i ∈ Finset.range w, (p (lo + i)).toNat

theorem ones_double (p : ℕ → Bool) (lo w : ℕ) : ones p lo (2 * w) = ones p lo w + ones p (lo + w) w := by
  rw [ones, two_mul, Finset.sum_range_add]
  simp only [ones, Nat.add_assoc]

theorem ones_le (p : ℕ → Bool) (lo w : ℕ) : ones p lo w ≤ w := by
  induction w with
  | zero => simp [ones]
  | succ w ih =>
    have hstep : ones p lo (w + 1) = ones p lo w + (p (lo + w)).toNat := Finset.sum_range_succ _ _
    have hone := Bool.toNat_le (p (lo + w))
    omega

end Schemes
