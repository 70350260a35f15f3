import SystemsLabs.Schemes.Loop
import SystemsLabs.Schemes.Rounding
import SystemsLabs.Datalab.Floats

/-! @lab datalab | file:bits.c | structure:unsigned to single precision | scheme:rounding |
    main result:floatUnsigned2Float_rounds

    The loop shifts down to 1 and counts, which is the exponent. Above 23 the low bits go: the masks of
    the guard, round and sticky bits, shifted by the exponent, give the last bit kept, the first one
    dropped and the others. Whether the rounding carries or not, the pattern is the rounded significand,
    with its leading bit, on top of 126 more than the exponent. -/

namespace Labs.Datalab
open Schemes

/-- `while (x > 0x1u)`. -/
def expLoop : ℕ → BitVec 32 → BitVec 32 → Except Stop (BitVec 32)
  | 0, _, _ => .error .fuel
  | n + 1, exp, x => if x > 1 then expLoop n (exp + 1) (x >>> 1) else .ok exp

/-- The exponent, one more where the rounding carries, and the fraction. -/
def expFrac (u exp : BitVec 32) : BitVec 32 × BitVec 32 :=
  if exp > 23 then
    let frac := (u >>> (exp - 23#32)) &&& 0x7FFFFF
    let g := (0x100#32 >>> (31#32 - exp)) &&& u
    let r := (0x80#32 >>> (31#32 - exp)) &&& u
    let s := (0xFF#32 >>> (32#32 - exp)) &&& u
    if (r ≠ 0 ∧ s ≠ 0) ∨ (r ≠ 0 ∧ g ≠ 0) then
      let frac := frac + 1
      if frac > 0x7FFFFF then (exp + 1, 0) else (exp, frac)
    else (exp, frac)
  else (exp, (u <<< (23#32 - exp)) &&& 0x7FFFFF)

def floatUnsigned2Float (fuel : ℕ) (u : BitVec 32) : Except Stop (BitVec 32) := do
  let exp ← expLoop fuel 0 u
  let (exp, frac) := expFrac u exp
  let exp := if u > 0 then exp + 127 else exp
  pure ((exp <<< 23) ||| frac)

/-! ### The exponent -/

/-- The loop adds the logarithm to its counter. -/
theorem expLoop_log2 : ∀ {n : ℕ} (exp x : BitVec 32), x.toNat.log2 < n →
    expLoop n exp x = .ok (exp + BitVec.ofNat 32 x.toNat.log2)
  | 0, _, _, hfuel => absurd hfuel (Nat.not_lt_zero _)
  | n + 1, exp, x, hfuel => by
      have hgt : x > 1 ↔ 2 ≤ x.toNat := Iff.rfl
      have hhalf : (x >>> 1).toNat = x.toNat / 2 := BitVec.toNat_ushiftRight x 1
      rw [Nat.log2_def] at hfuel ⊢
      rw [expLoop]
      by_cases hx : 2 ≤ x.toNat
      · rw [if_pos hx] at hfuel ⊢
        rw [if_pos (hgt.mpr hx), expLoop_log2 _ _ (by rw [hhalf]; omega), hhalf, BitVec.ofNat_add,
          BitVec.add_assoc, BitVec.add_comm 1]
        rfl
      · rw [if_neg hx, if_neg (mt hgt.mp hx)]
        simp

theorem log2_toNat_lt (u : BitVec 32) : u.toNat.log2 < 32 := by
  by_cases h0 : u.toNat = 0
  · rw [h0]
    decide
  · exact (Nat.log2_lt h0).mpr u.isLt

theorem expLoop_converges (u : BitVec 32) :
    Converges (fun fuel => expLoop fuel 0 u) (BitVec.ofNat 32 u.toNat.log2) := by
  refine ⟨32, fun fuel hfuel => ?_⟩
  change expLoop fuel 0 u = _
  rw [expLoop_log2 0 u (Nat.lt_of_lt_of_le (log2_toNat_lt u) hfuel)]
  simp

theorem toNat_exponent (u : BitVec 32) : (BitVec.ofNat 32 u.toNat.log2).toNat = u.toNat.log2 := by
  have hlt := log2_toNat_lt u
  rw [BitVec.toNat_ofNat]
  omega

/-! ### The significand -/

section Significand
variable {u exp : BitVec 32} {d : ℕ}

/-- A mask moved down to the position the exponent gives. -/
theorem toNat_mask (c k : BitVec 32) (hle : exp.toNat ≤ k.toNat) :
    (c >>> (k - exp)).toNat = c.toNat / 2 ^ (k.toNat - exp.toNat) := by
  rw [BitVec.ushiftRight_eq', BitVec.toNat_ushiftRight, Nat.shiftRight_eq_div_pow,
    BitVec.toNat_sub_of_le (BitVec.le_def.mpr hle)]

/-- The three masks select bit `d + 1`, bit `d` and the bits under it. -/
theorem masks : ∀ d < 8, 256 / 2 ^ (31 - (d + 24)) = 2 ^ (d + 1) ∧
    128 / 2 ^ (31 - (d + 24)) = 2 ^ d ∧ 255 / 2 ^ (32 - (d + 24)) = 2 ^ d - 1 := by
  decide

theorem and_ne_zero_iff (u m : BitVec 32) : m &&& u ≠ 0 ↔ u.toNat &&& m.toNat ≠ 0 := by
  rw [Ne, ← BitVec.toNat_inj, BitVec.toNat_and, Nat.and_comm]
  rfl

section Masks
variable (hexp : exp.toNat = d + 24) (hd : d < 8)
include hexp hd

theorem guard_iff : (0x100#32 >>> (31#32 - exp)) &&& u ≠ 0 ↔ u.toNat / 2 ^ (d + 1) % 2 = 1 := by
  have hmask : (0x100#32 >>> (31#32 - exp)).toNat = 2 ^ (d + 1) := by
    rw [toNat_mask _ _ (by rw [hexp]; change d + 24 ≤ 31; omega), hexp, ← (masks d hd).1]
    rfl
  rw [and_ne_zero_iff, hmask, Word.and_two_pow_ne_zero]

theorem round_iff : (0x80#32 >>> (31#32 - exp)) &&& u ≠ 0 ↔ u.toNat / 2 ^ d % 2 = 1 := by
  have hmask : (0x80#32 >>> (31#32 - exp)).toNat = 2 ^ d := by
    rw [toNat_mask _ _ (by rw [hexp]; change d + 24 ≤ 31; omega), hexp, ← (masks d hd).2.1]
    rfl
  rw [and_ne_zero_iff, hmask, Word.and_two_pow_ne_zero]

theorem sticky_iff : (0xFF#32 >>> (32#32 - exp)) &&& u ≠ 0 ↔ u.toNat % 2 ^ d ≠ 0 := by
  have hmask : (0xFF#32 >>> (32#32 - exp)).toNat = 2 ^ d - 1 := by
    rw [toNat_mask _ _ (by rw [hexp]; change d + 24 ≤ 32; omega), hexp, ← (masks d hd).2.2]
    rfl
  rw [and_ne_zero_iff, hmask, Nat.and_two_pow_sub_one_eq_mod]

end Masks

/-- Above 23, the fields make up the exponent and the rounded significand. -/
theorem expFrac_high (hexp : exp.toNat = d + 24) (hd : d < 8) (hlow : 2 ^ (d + 24) ≤ u.toNat)
    (hhigh : u.toNat < 2 ^ (d + 25)) :
    (expFrac u exp).1.toNat * 2 ^ 23 + (expFrac u exp).2.toNat + 2 ^ 23 =
        (d + 24) * 2 ^ 23 + roundEven u.toNat (2 ^ (d + 1)) ∧
      (expFrac u exp).1.toNat ≤ 32 ∧ (expFrac u exp).2.toNat < 2 ^ 23 := by
  have hqlow : 2 ^ 23 ≤ u.toNat / 2 ^ (d + 1) := by
    rw [Nat.le_div_iff_mul_le (Nat.two_pow_pos _), ← pow_add, Nat.add_comm]
    exact hlow
  have hqhigh : u.toNat / 2 ^ (d + 1) < 2 ^ 24 := by
    apply Nat.div_lt_of_lt_mul
    rw [← pow_add, Nat.add_assoc, Nat.add_comm 1]
    exact hhigh
  have hfrac : ((u >>> (exp - 23#32)) &&& 0x7FFFFF).toNat = u.toNat / 2 ^ (d + 1) - 2 ^ 23 := by
    have hle : 23#32 ≤ exp := by
      rw [BitVec.le_def, hexp]
      change 23 ≤ d + 24
      omega
    have hshift : (exp - 23#32).toNat = d + 1 := by
      rw [BitVec.toNat_sub_of_le hle, hexp]
      rfl
    rw [toNat_frac, BitVec.ushiftRight_eq', BitVec.toNat_ushiftRight, Nat.shiftRight_eq_div_pow, hshift]
    omega
  have hgt : exp > 23 := by
    change 23 < exp.toNat
    omega
  rw [expFrac, if_pos hgt, roundEven_bits]
  simp only [guard_iff hexp hd, round_iff hexp hd, sticky_iff hexp hd]
  generalize (u >>> (exp - 23#32)) &&& 0x7FFFFF = frac at hfrac ⊢
  generalize u.toNat / 2 ^ (d + 1) = q at hqlow hqhigh hfrac ⊢
  have hfrac1 : (frac + 1).toNat = frac.toNat + 1 := toNat_add_of_lt 1 (by omega)
  have hexp1 : (exp + 1).toNat = exp.toNat + 1 := toNat_add_of_lt 1 (by omega)
  have hcarry : frac + 1 > 0x7FFFFF ↔ 2 ^ 23 ≤ frac.toNat + 1 := by
    rw [← hfrac1]
    rfl
  split
  · split
    · -- the rounding carries into the exponent
      rename_i hover
      have hlast := hcarry.mp hover
      change (exp + 1).toNat * 2 ^ 23 + 0 + 2 ^ 23 = _ ∧ (exp + 1).toNat ≤ 32 ∧ 0 < 2 ^ 23
      omega
    · rename_i hfit
      have hroom := mt hcarry.mpr hfit
      change exp.toNat * 2 ^ 23 + (frac + 1).toNat + 2 ^ 23 = _ ∧ exp.toNat ≤ 32 ∧
        (frac + 1).toNat < 2 ^ 23
      omega
  · change exp.toNat * 2 ^ 23 + frac.toNat + 2 ^ 23 = _ ∧ exp.toNat ≤ 32 ∧ frac.toNat < 2 ^ 23
    omega

/-- Up to 23, nothing is dropped. -/
theorem expFrac_low (hexp : exp.toNat ≤ 23) (hlow : 2 ^ exp.toNat ≤ u.toNat)
    (hhigh : u.toNat < 2 ^ (exp.toNat + 1)) :
    (expFrac u exp).1.toNat * 2 ^ 23 + (expFrac u exp).2.toNat + 2 ^ 23 =
        exp.toNat * 2 ^ 23 + u.toNat * 2 ^ (23 - exp.toNat) ∧
      (expFrac u exp).1.toNat ≤ 32 ∧ (expFrac u exp).2.toNat < 2 ^ 23 := by
  have hpos := Nat.two_pow_pos (23 - exp.toNat)
  have hslow : 2 ^ 23 ≤ u.toNat * 2 ^ (23 - exp.toNat) := by
    calc 2 ^ 23 = 2 ^ exp.toNat * 2 ^ (23 - exp.toNat) := by rw [← pow_add, Nat.add_sub_cancel' hexp]
      _ ≤ u.toNat * 2 ^ (23 - exp.toNat) := Nat.mul_le_mul_right _ hlow
  have hshigh : u.toNat * 2 ^ (23 - exp.toNat) < 2 ^ 24 := by
    calc u.toNat * 2 ^ (23 - exp.toNat) < 2 ^ (exp.toNat + 1) * 2 ^ (23 - exp.toNat) :=
          Nat.mul_lt_mul_of_pos_right hhigh hpos
      _ = 2 ^ 24 := by
          rw [← pow_add]
          congr 1
          omega
  have hfrac : ((u <<< (23#32 - exp)) &&& 0x7FFFFF).toNat = u.toNat * 2 ^ (23 - exp.toNat) - 2 ^ 23 := by
    have hshift : (23#32 - exp).toNat = 23 - exp.toNat := BitVec.toNat_sub_of_le (BitVec.le_def.mpr hexp)
    rw [toNat_frac, BitVec.shiftLeft_eq', BitVec.toNat_shiftLeft, Nat.shiftLeft_eq, hshift]
    omega
  have hle : ¬ exp > 23 := fun hgt => absurd hexp (Nat.not_le_of_lt hgt)
  have hresult : expFrac u exp = (exp, (u <<< (23#32 - exp)) &&& 0x7FFFFF) := if_neg hle
  rw [hresult, hfrac]
  change exp.toNat * 2 ^ 23 + _ + 2 ^ 23 = _ ∧ exp.toNat ≤ 32 ∧ _
  omega

/-- The exact significand, or the rounded one. -/
def significand (n : ℕ) : ℕ :=
  if n.log2 < 24 then n * 2 ^ (23 - n.log2) else roundEven n (2 ^ (n.log2 - 23))

theorem expFrac_eq (h0 : u.toNat ≠ 0) (hexp : exp.toNat = u.toNat.log2) :
    (expFrac u exp).1.toNat * 2 ^ 23 + (expFrac u exp).2.toNat + 2 ^ 23 =
        exp.toNat * 2 ^ 23 + significand u.toNat ∧
      (expFrac u exp).1.toNat ≤ 32 ∧ (expFrac u exp).2.toNat < 2 ^ 23 := by
  have hlow := Nat.log2_self_le h0
  have hhigh := @Nat.lt_log2_self u.toNat
  have hlt := log2_toNat_lt u
  rw [← hexp] at hlow hhigh hlt
  rw [significand, ← hexp]
  split
  · exact expFrac_low (by omega) hlow hhigh
  · obtain ⟨d, hd⟩ := Nat.exists_eq_add_of_le' (Nat.le_of_not_lt (by assumption))
    have hsub : exp.toNat - 23 = d + 1 := by omega
    rw [hsub, hd]
    rw [hd] at hlow hhigh
    exact expFrac_high hd (by omega) hlow hhigh

theorem significand_bounds {n : ℕ} (h0 : n ≠ 0) :
    2 ^ 23 ≤ significand n ∧ significand n ≤ 2 ^ 24 := by
  have hlow := Nat.log2_self_le h0
  have hhigh := @Nat.lt_log2_self n
  rw [significand]
  generalize n.log2 = e at hlow hhigh ⊢
  split
  · have hcancel : 2 ^ e * 2 ^ (23 - e) = 2 ^ 23 := by rw [← pow_add, Nat.add_sub_cancel' (by omega)]
    have hle := Nat.mul_le_mul_right (2 ^ (23 - e)) hlow
    have hlt := Nat.mul_le_mul_right (2 ^ (23 - e)) hhigh.le
    rw [pow_succ, Nat.mul_right_comm] at hlt
    omega
  · have hcancel : 2 ^ 23 * 2 ^ (e - 23) = 2 ^ e := by rw [← pow_add, Nat.add_sub_cancel' (by omega)]
    have hpos := Nat.two_pow_pos (e - 23)
    have hq : 2 ^ 23 ≤ n / 2 ^ (e - 23) := (Nat.le_div_iff_mul_le hpos).mpr (hcancel ▸ hlow)
    have hq' : n / 2 ^ (e - 23) < 2 ^ 24 := by
      apply Nat.div_lt_of_lt_mul
      rw [pow_succ, ← hcancel] at hhigh
      omega
    have hle := le_roundEven n (2 ^ (e - 23))
    have hge := roundEven_le n (2 ^ (e - 23))
    omega

end Significand

/-! ### The pattern -/

section Pattern
variable {u r : BitVec 32}

theorem floatUnsigned2Float_converges (u : BitVec 32) :
    ∃ r, Converges (fun fuel => floatUnsigned2Float fuel u) r ∧ (u.toNat = 0 → r = 0) ∧
      (u.toNat ≠ 0 → r.toNat = significand u.toNat + (u.toNat.log2 + 126) * 2 ^ 23) := by
  have hloop := expLoop_converges u
  have hexp := toNat_exponent u
  generalize BitVec.ofNat 32 u.toNat.log2 = exp at hloop hexp
  have hrun : Converges (fun fuel => floatUnsigned2Float fuel u)
      (((if u > 0 then (expFrac u exp).1 + 127 else (expFrac u exp).1) <<< 23) ||| (expFrac u exp).2) := by
    obtain ⟨N, hN⟩ := hloop
    refine ⟨N, fun fuel hfuel => ?_⟩
    have hend : expLoop fuel 0 u = .ok exp := hN fuel hfuel
    change floatUnsigned2Float fuel u = _
    rw [floatUnsigned2Float, hend]
    rfl
  have hgt : u > 0 ↔ 0 < u.toNat := Iff.rfl
  refine ⟨_, hrun, fun h0 => ?_, fun h0 => ?_⟩
  · have hzero : u = 0 := BitVec.eq_of_toNat_eq h0
    have hexp0 : exp = 0 := BitVec.eq_of_toNat_eq (by rw [hexp, h0]; rfl)
    rw [hzero, hexp0]
    decide
  · obtain ⟨hsum, hexp', hfrac⟩ := expFrac_eq h0 hexp
    have hbias : ((expFrac u exp).1 + 127).toNat = (expFrac u exp).1.toNat + 127 :=
      toNat_add_of_lt 127 (by omega)
    rw [if_pos (hgt.mpr (Nat.pos_of_ne_zero h0)), toNat_exp_frac (by omega) hfrac, hbias]
    omega

/-- A significand on top of the exponent field. -/
theorem decode_significand {t e : ℕ} (hlow : 2 ^ 23 ≤ t) (hhigh : t ≤ 2 ^ 24) (he : e < 32)
    (hr : r.toNat = t + (e + 126) * 2 ^ 23) :
    decode r = .fin (t * 2 ^ ((e : ℤ) - 23)) ∧ r.msb = false := by
  have hmsb : r.msb = false := BitVec.msb_eq_false_iff_two_mul_lt.mpr (by omega)
  have hbody : r.toNat % 2 ^ 31 = t + (e + 126) * 2 ^ 23 := by omega
  have hunits : single.units (t + (e + 126) * 2 ^ 23) = t * 2 ^ (e + 126) :=
    Format.units_significand (F := single) hlow (by change t ≤ 2 * 2 ^ 23; omega) (e + 126)
  have hvalue : (single.units (t + (e + 126) * 2 ^ 23) : ℚ) * single.ulp = t * 2 ^ ((e : ℤ) - 23) := by
    have hulp : single.ulp = 2 ^ (-149 : ℤ) := rfl
    have hsum : ((e + 126 : ℕ) : ℤ) + -149 = e - 23 := by omega
    rw [hunits, hulp, Nat.cast_mul, Nat.cast_pow, Nat.cast_ofNat, ← zpow_natCast, mul_assoc,
      ← zpow_add₀ (by norm_num), hsum]
  have hfinite : t + (e + 126) * 2 ^ 23 < single.infinity := by
    rw [infinity_single]
    omega
  refine ⟨?_, hmsb⟩
  rw [decode_eq, Format.decode_word (body_lt r), hbody, if_pos hfinite, hmsb, Format.signed,
    if_neg (by simp), hvalue]

/-- Small numbers keep their value. -/
theorem significand_exact {n : ℕ} (hn : n.log2 < 24) :
    (significand n : ℚ) * 2 ^ ((n.log2 : ℤ) - 23) = n := by
  have hsub : ((23 - n.log2 : ℕ) : ℤ) = 23 - n.log2 := by omega
  rw [significand, if_pos hn, Nat.cast_mul, Nat.cast_pow, Nat.cast_ofNat, ← zpow_natCast, hsub,
    mul_assoc, ← zpow_add₀ (by norm_num)]
  simp

theorem significand_rounded {n : ℕ} (hn : ¬ n.log2 < 24) :
    (significand n : ℚ) * 2 ^ ((n.log2 : ℤ) - 23) =
      roundEven n (2 ^ (n.log2 - 23)) * 2 ^ (n.log2 - 23) := by
  have hsub : ((n.log2 - 23 : ℕ) : ℤ) = n.log2 - 23 := by omega
  rw [significand, if_neg hn, ← hsub, zpow_natCast]

/-- The binade that the steps are for. -/
theorem binade_le {n : ℕ} (h0 : n ≠ 0) (hn : ¬ n.log2 < 24) : 2 ^ 23 * 2 ^ (n.log2 - 23) ≤ n := by
  rw [← pow_add, Nat.add_sub_cancel' (by omega)]
  exact Nat.log2_self_le h0

theorem significand_nearest {n : ℕ} (h0 : n ≠ 0) :
    Nearest 24 n (significand n * 2 ^ ((n.log2 : ℤ) - 23)) := by
  by_cases hn : n.log2 < 24
  · rw [significand_exact hn]
    exact nearest_natCast ((Nat.log2_lt h0).mp hn)
  · have hhigh := (significand_bounds h0).2
    rw [significand, if_neg hn] at hhigh
    rw [significand_rounded hn]
    exact roundEven_nearest (binade_le h0 hn) hhigh

theorem significand_even {n : ℕ} {y : ℚ} (h0 : n ≠ 0) (hy : Significant 24 y)
    (hne : y ≠ significand n * 2 ^ ((n.log2 : ℤ) - 23))
    (hdist : |(n : ℚ) - y| = |(n : ℚ) - significand n * 2 ^ ((n.log2 : ℤ) - 23)|) :
    Even (significand n) := by
  by_cases hn : n.log2 < 24
  · rw [significand_exact hn] at hne hdist
    rw [sub_self, abs_zero, abs_eq_zero, sub_eq_zero] at hdist
    exact absurd hdist.symm hne
  · rw [significand_rounded hn] at hne hdist
    rw [significand, if_neg hn]
    exact roundEven_even (binade_le h0 hn) hy hne hdist

theorem decode_zero : decode 0 = .fin 0 := by
  have hsigned : single.signed false 0 = 0 := Format.signed_eq_zero.mpr rfl
  rw [decode_eq, Format.decode_word (body_lt 0), if_pos (by decide)]
  exact congrArg Datum.fin hsigned

/-- The result stands for the nearest number with a 24-bit significand, the even one of two. -/
theorem floatUnsigned2Float_rounds (u : BitVec 32) : ∃ (exp r : BitVec 32) (v : ℚ),
    Converges (fun fuel => expLoop fuel 0 u) exp ∧ exp.toNat = u.toNat.log2 ∧
    Converges (fun fuel => floatUnsigned2Float fuel u) r ∧ r.msb = false ∧ decode r = .fin v ∧
    Nearest 24 u.toNat v ∧
    (∀ y, Significant 24 y → y ≠ v → |(u.toNat : ℚ) - y| = |(u.toNat : ℚ) - v| →
      Even (single.fraction r.toNat)) ∧
    (u.toNat < 2 ^ 24 → v = u.toNat) := by
  obtain ⟨r, hrun, hzero, hpattern⟩ := floatUnsigned2Float_converges u
  suffices hvalue : ∃ v, r.msb = false ∧ decode r = .fin v ∧ Nearest 24 u.toNat v ∧
      (∀ y, Significant 24 y → y ≠ v → |(u.toNat : ℚ) - y| = |(u.toNat : ℚ) - v| →
        Even (single.fraction r.toNat)) ∧ (u.toNat < 2 ^ 24 → v = u.toNat) by
    obtain ⟨v, hv⟩ := hvalue
    exact ⟨_, r, v, expLoop_converges u, toNat_exponent u, hrun, hv⟩
  by_cases h0 : u.toNat = 0
  · rw [hzero h0, h0]
    refine ⟨0, rfl, decode_zero, ?_, fun y _ _ _ => by decide, fun _ => Nat.cast_zero.symm⟩
    exact nearest_natCast (Nat.two_pow_pos 24)
  · obtain ⟨hlow, hhigh⟩ := significand_bounds h0
    have hfraction : single.fraction r.toNat = significand u.toNat % 2 ^ 23 := by
      rw [hpattern h0]
      exact Nat.add_mul_mod_self_right _ _ _
    obtain ⟨hdecode, hmsb⟩ := decode_significand hlow hhigh (log2_toNat_lt u) (hpattern h0)
    refine ⟨_, hmsb, hdecode, significand_nearest h0, fun y hy hne hdist => ?_, fun hsmall => ?_⟩
    · have heven := Nat.even_iff.mp (significand_even h0 hy hne hdist)
      rw [hfraction, Nat.even_iff]
      omega
    · exact significand_exact ((Nat.log2_lt h0).mpr hsmall)

end Pattern

end Labs.Datalab
