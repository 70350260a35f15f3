import SystemsLabs.Datalab.Division

/-! @lab datalab | file:bits.c, tests.c | structure:unrolled binary search | scheme:word |
    main result:integerLog2_exact

    Each step asks whether a bit is set from `half + 2^k` on. Before it `half` is the logarithm with
    the bits below `k + 1` cleared, and after it with those below `k`, so the last step leaves the
    logarithm itself, and no shift goes beyond the word. The reference looks at the bits from the top. -/

namespace Labs.Datalab
open Schemes Schemes.Word

/-- `half` after the first `j` steps. -/
def halfAfter (x : BitVec 64) : ℕ → BitVec 64
  | 0 => 0
  | j + 1 => narrow x (BitVec.ofNat 64 (2 ^ (5 - j))) (5 - j) (halfAfter x j)

/-! ### Numbers -/

/-- One more bit of a number kept. -/
theorem keep_bit (L : ℕ) {P : ℕ} (hP : 0 < P) :
    L / P * P = L / (P * 2) * (P * 2) + if L / (P * 2) * (P * 2) + P ≤ L then P else 0 := by
  have hdiv := Nat.div_add_mod L P
  have hlt := Nat.mod_lt L hP
  rw [← Nat.div_div_eq_div_mul]
  generalize L / P = m at hdiv ⊢
  have hhalf := Nat.div_add_mod m 2
  generalize m / 2 = t at hhalf ⊢
  have hswap : t * (P * 2) = P * (2 * t) := by
    rw [Nat.mul_comm t, Nat.mul_assoc]
  rw [hswap, ← hhalf, Nat.add_mul, Nat.mul_comm (2 * t)]
  rcases Nat.mod_two_eq_zero_or_one m with heven | hodd
  · rw [← hhalf, heven, Nat.add_zero] at hdiv
    rw [heven, if_neg (by omega), Nat.zero_mul]
  · rw [← hhalf, hodd, Nat.mul_add, Nat.mul_one] at hdiv
    rw [hodd, if_pos (by omega), Nat.one_mul]

section Log2
variable {x half : BitVec 64} {k n : ℕ}

theorem toInt_eq_toNat_of_pos (hx : 0 < x.toInt) : x.toInt = x.toNat ∧ x.toNat < 2 ^ 63 := by
  have hlt := x.isLt
  rw [BitVec.toInt_eq_toNat_cond] at hx ⊢
  split at hx
  · rename_i hsmall
    exact ⟨if_pos hsmall, by omega⟩
  · omega

/-- Shifting a positive number down by `s` leaves something if it has a bit from `s` on. -/
theorem shifted_ne_zero_iff (hx : 0 < x.toInt) (s : ℕ) : x.sshiftRight s ≠ 0 ↔ s ≤ x.toNat.log2 := by
  obtain ⟨hint, -⟩ := toInt_eq_toNat_of_pos hx
  have hne : x.toNat ≠ 0 := by omega
  rw [Nat.le_log2 hne, Ne, ← BitVec.toInt_inj, toInt_sar, hint]
  change ¬ (x.toNat : ℤ) / 2 ^ s = 0 ↔ _
  have hcast : (x.toNat : ℤ) / 2 ^ s = (x.toNat / 2 ^ s : ℕ) := by
    push_cast
    rfl
  rw [hcast, Int.natCast_eq_zero]
  simp [Nat.div_eq_zero_iff]

theorem log2_le (hx : 0 < x.toInt) : x.toNat.log2 ≤ 62 := by
  obtain ⟨hint, hlt⟩ := toInt_eq_toNat_of_pos hx
  have hne : x.toNat ≠ 0 := by omega
  exact Nat.le_of_lt_succ ((Nat.log2_lt hne).mpr hlt)

/-! ### The search -/

/-- With the upper bits of the logarithm in `half`, the next shift stays within the word. -/
theorem shift_le (hx : 0 < x.toInt) (hk : k ≤ 5)
    (h : half.toNat = x.toNat.log2 / 2 ^ (k + 1) * 2 ^ (k + 1)) :
    (half + BitVec.ofNat 64 (2 ^ k)).toNat = half.toNat + 2 ^ k ∧ half.toNat + 2 ^ k ≤ 63 := by
  have hlog := log2_le hx
  have hpos := Nat.two_pow_pos k
  have hroom : 2 ^ (k + 1) * 2 ^ (5 - k) = 64 := by
    have hexp : k + 1 + (5 - k) = 6 := by omega
    rw [← Nat.pow_add, hexp]
  have hlt : x.toNat.log2 / 2 ^ (k + 1) < 2 ^ (5 - k) := Nat.div_lt_of_lt_mul (by omega)
  have hle := Nat.mul_le_mul_right (2 ^ (k + 1)) hlt
  rw [Nat.mul_comm (2 ^ (5 - k)), hroom, Nat.succ_mul, ← h, Nat.pow_succ] at hle
  have hsum : half.toNat + 2 ^ k ≤ 63 := by omega
  refine ⟨?_, hsum⟩
  rw [BitVec.toNat_add, BitVec.toNat_ofNat]
  omega

/-- Step lemma: one more bit of the logarithm. -/
theorem narrow_step (hx : 0 < x.toInt) (hk : k ≤ 5)
    (h : half.toNat = x.toNat.log2 / 2 ^ (k + 1) * 2 ^ (k + 1)) :
    (narrow x (BitVec.ofNat 64 (2 ^ k)) k half).toNat = x.toNat.log2 / 2 ^ k * 2 ^ k := by
  obtain ⟨hshift, hsum⟩ := shift_le hx hk h
  have hset := shifted_ne_zero_iff hx (half.toNat + 2 ^ k)
  have hbit : (1#64 <<< k).toNat = 2 ^ k := toNat_one_shift (by omega)
  rw [keep_bit _ (Nat.two_pow_pos k), ← Nat.pow_succ, ← h, narrow, hshift, lnot_lnot]
  by_cases hle : half.toNat + 2 ^ k ≤ x.toNat.log2
  · rw [if_neg (hset.mpr hle), if_pos hle, BitVec.toNat_add]
    change (half.toNat + (1#64 <<< k).toNat) % 2 ^ 64 = _
    rw [hbit]
    omega
  · rw [if_pos (not_not.mp (mt hset.mp hle)), if_neg hle]
    simp

/-- Run lemma: after `j` steps the bits below `6 - j` are still to be found. -/
theorem toNat_halfAfter (hx : 0 < x.toInt) : ∀ j ≤ 6,
    (halfAfter x j).toNat = x.toNat.log2 / 2 ^ (6 - j) * 2 ^ (6 - j) := by
  intro j
  induction j with
  | zero =>
    intro _
    have hlog := log2_le hx
    rw [Nat.div_eq_of_lt (by omega), Nat.zero_mul]
    rfl
  | succ j ih =>
    intro hj
    have hbefore : 6 - j = 5 - j + 1 := by omega
    have hafter : 6 - (j + 1) = 5 - j := by omega
    have h := ih (Nat.le_of_succ_le hj)
    rw [hbefore] at h
    rw [hafter]
    exact narrow_step hx (Nat.sub_le 5 j) h

theorem integerLog2_eq (x : BitVec 64) : integerLog2 x = halfAfter x 6 := by
  simp [integerLog2, halfAfter, narrow]

theorem toNat_integerLog2 (hx : 0 < x.toInt) : (integerLog2 x).toNat = x.toNat.log2 := by
  rw [integerLog2_eq, toNat_halfAfter hx 6 (Nat.le_refl 6), Nat.sub_self, Nat.pow_zero, Nat.div_one,
    Nat.mul_one]

/-! ### The reference -/

theorem and_one_shift (hn : n < 64) (hlt : x.toNat < 2 ^ (n + 1)) :
    x &&& (1#64 <<< n) ≠ 0 ↔ 2 ^ n ≤ x.toNat := by
  have hbit : (1#64 <<< n).toNat = 2 ^ n := toNat_one_shift hn
  have hhalf : x.toNat / 2 ^ n < 2 := Nat.div_lt_of_lt_mul (by rwa [← Nat.pow_succ])
  have hpos : 2 ^ n ≤ x.toNat ↔ 1 ≤ x.toNat / 2 ^ n :=
    (Nat.one_le_div_iff (Nat.two_pow_pos n)).symm
  rw [Ne, ← BitVec.toNat_inj, BitVec.toNat_and, hbit]
  change x.toNat &&& 2 ^ n ≠ 0 ↔ _
  rw [and_two_pow_ne_zero, hpos]
  generalize x.toNat / 2 ^ n = q at hhalf ⊢
  omega

/-- The loop stops at the leading bit. -/
theorem leftmostBit_log2 (h0 : x.toNat ≠ 0) : ∀ n ≤ 64, x.toNat < 2 ^ n →
    leftmostBit x n = BitVec.ofNat 64 x.toNat.log2 := by
  intro n
  induction n with
  | zero =>
    intro _ hlt
    exact absurd (Nat.lt_one_iff.mp hlt) h0
  | succ n ih =>
    intro hn hlt
    have hset := and_one_shift hn hlt
    rw [leftmostBit]
    by_cases hle : 2 ^ n ≤ x.toNat
    · rw [if_pos (hset.mpr hle), (Nat.log2_eq_iff h0).mpr ⟨hle, hlt⟩]
    · rw [if_neg (mt hset.mp hle)]
      exact ih (Nat.le_of_succ_le hn) (Nat.lt_of_not_le hle)

/-- The logarithm rounded down, found with shifts of at most 63, as the loop over the bits finds it. -/
theorem integerLog2_exact (hx : 0 < x.toInt) :
    (∃ k : ℕ, (integerLog2 x).toInt = k ∧ 2 ^ k ≤ x.toInt ∧ x.toInt < 2 ^ (k + 1) ∧
      ∀ k' : ℕ, 2 ^ k' ≤ x.toInt → x.toInt < 2 ^ (k' + 1) → k' = k) ∧
    integerLog2 x = halfAfter x 6 ∧
    (∀ j < 6, (halfAfter x j + BitVec.ofNat 64 (2 ^ (5 - j))).toNat ≤ 63) ∧
    integerLog2 x = test_integerLog2 x := by
  obtain ⟨hint, hlt⟩ := toInt_eq_toNat_of_pos hx
  have hval := toNat_integerLog2 hx
  have hlog := log2_le hx
  have h0 : x.toNat ≠ 0 := by omega
  refine ⟨⟨x.toNat.log2, ?_, ?_, ?_, fun k' hle hgt => ?_⟩, integerLog2_eq x, fun j hj => ?_, ?_⟩
  · rw [BitVec.toInt_eq_toNat_of_lt (by omega), hval]
  · rw [hint]
    exact_mod_cast Nat.log2_self_le h0
  · rw [hint]
    exact_mod_cast Nat.lt_log2_self
  · rw [hint] at hle hgt
    exact ((Nat.log2_eq_iff h0).mpr ⟨by exact_mod_cast hle, by exact_mod_cast hgt⟩).symm
  · have h := toNat_halfAfter hx j (Nat.le_of_lt hj)
    have hexp : 6 - j = 5 - j + 1 := by omega
    rw [hexp] at h
    obtain ⟨hshift, hsum⟩ := shift_le hx (Nat.sub_le 5 j) h
    rwa [hshift]
  · apply BitVec.eq_of_toNat_eq
    rw [hval, test_integerLog2, leftmostBit_log2 h0 64 (Nat.le_refl 64) x.isLt, BitVec.toNat_ofNat]
    omega

theorem integerLog2_exact_31 : integerLog2 31 = test_integerLog2 31 :=
  (integerLog2_exact (by decide)).2.2.2

end Log2

end Labs.Datalab
