import SystemsLabs.Schemes.Binary
import SystemsLabs.Schemes.Word
import Mathlib.Data.Nat.Bitwise

/-! @lab datalab | file:bits.c | structure:single-precision bit patterns | scheme:binary |
    main result:floatIsEqual_iff, floatScale4_exact

    `floatIsEqual` compares patterns: it is right because only the two zeros share a value.
    `floatScale4` adds 2 to the exponent of a normal number and stops at infinity; a denormal is shifted,
    and where the shift carries into the exponent field the pattern is still its own magnitude up to the
    end of the first normal binade. What it computes is the pattern of four times the magnitude, cut off
    at the pattern of infinity. -/

namespace Labs.Datalab
open Schemes

/-- `float`: 23 fraction bits and 8 exponent bits. -/
def single : Format := ⟨23, 8, Nat.succ_pos 7⟩

def decode (uf : BitVec 32) : Datum := single.decode uf.toNat

def floatIsEqual (uf ug : BitVec 32) : BitVec 32 :=
  if ((uf >>> 23) &&& 0xFF) = 0xFF ∧ (uf &&& 0x007FFFFF) ≠ 0 then 0
  else if ((ug >>> 23) &&& 0xFF) = 0xFF ∧ (ug &&& 0x007FFFFF) ≠ 0 then 0
  else if uf <<< 1 = 0 ∧ ug <<< 1 = 0 then 1
  else if uf = ug then 1 else 0

def floatScale4 (uf : BitVec 32) : BitVec 32 :=
  let sign := uf &&& 0x80000000#32
  let exp := (uf >>> 23) &&& 0xFF
  let frac := uf &&& 0x007FFFFF
  if exp = 0xFF ∨ (exp = 0 ∧ frac = 0) then uf
  else if exp ≠ 0 then
    let exp := exp + 2
    if exp ≥ 0xFF then sign ||| (0xFF#32 <<< 23) ||| 0#32
    else sign ||| (exp <<< 23) ||| frac
  else if (frac &&& 0x400000) ≠ 0 then
    let frac := (frac <<< 1) &&& 0x7FFFFF
    let exp := exp + 2
    sign ||| (exp <<< 23) ||| frac
  else sign ||| (frac <<< 2)

/-! ### Fields -/

section Fields
variable {uf ug e f : BitVec 32} {s : Bool} {m : ℕ}

theorem toNat_exp (uf : BitVec 32) : ((uf >>> 23) &&& 0xFF).toNat = uf.toNat / 2 ^ 23 % 256 := by
  rw [BitVec.toNat_and, BitVec.toNat_ushiftRight, Nat.shiftRight_eq_div_pow]
  exact Nat.and_two_pow_sub_one_eq_mod _ 8

theorem toNat_frac (uf : BitVec 32) : (uf &&& 0x007FFFFF).toNat = uf.toNat % 2 ^ 23 := by
  rw [BitVec.toNat_and]
  exact Nat.and_two_pow_sub_one_eq_mod _ 23

/-- A field that is moved up without leaving the word. -/
theorem toNat_add_of_lt (k : ℕ) (h : e.toNat + k < 2 ^ 32) :
    (e + BitVec.ofNat 32 k).toNat = e.toNat + k := by
  rw [BitVec.toNat_add, BitVec.toNat_ofNat]
  omega

theorem toNat_sign (uf : BitVec 32) : (uf &&& 0x80000000#32).toNat = 2 ^ 31 * (uf.toNat / 2 ^ 31) := by
  have hlt := uf.isLt
  rw [BitVec.toNat_and]
  change uf.toNat &&& 2 ^ 31 = _
  rw [Nat.and_two_pow, Nat.testBit_eq_decide_div_mod_eq, Nat.mul_comm]
  have hcases : uf.toNat / 2 ^ 31 = 0 ∨ uf.toNat / 2 ^ 31 = 1 := by omega
  generalize uf.toNat / 2 ^ 31 = q at hcases ⊢
  rcases hcases with rfl | rfl
  · rfl
  · rfl

/-- The fields do not overlap. -/
theorem toNat_exp_frac (he : e.toNat < 256) (hf : f.toNat < 2 ^ 23) :
    ((e <<< 23) ||| f).toNat = e.toNat * 2 ^ 23 + f.toNat := by
  have hshift : (e <<< 23).toNat = 2 ^ 23 * e.toNat := by
    rw [BitVec.toNat_shiftLeft, Nat.shiftLeft_eq, Nat.mul_comm]
    exact Nat.mod_eq_of_lt (by omega)
  rw [BitVec.toNat_or, hshift, ← Nat.two_pow_add_eq_or_of_lt hf, Nat.mul_comm]

theorem toNat_fields (uf : BitVec 32) (he : e.toNat < 256) (hf : f.toNat < 2 ^ 23) :
    ((uf &&& 0x80000000#32) ||| (e <<< 23) ||| f).toNat =
      2 ^ 31 * (uf.toNat / 2 ^ 31) + (e.toNat * 2 ^ 23 + f.toNat) := by
  rw [BitVec.or_assoc, BitVec.toNat_or, toNat_sign, toNat_exp_frac he hf,
    ← Nat.two_pow_add_eq_or_of_lt (by omega)]

/-- Every pattern is a sign and 31 bits. -/
theorem toNat_eq_word (uf : BitVec 32) : uf.toNat = single.word uf.msb (uf.toNat % 2 ^ 31) := by
  have hmsb : single.negative uf.toNat = uf.msb := by
    rw [BitVec.msb_eq_getLsbD_last]
    rfl
  have hword := Format.word_of_lt (F := single) uf.isLt
  rw [hmsb] at hword
  exact hword.symm

theorem decode_eq (uf : BitVec 32) :
    decode uf = single.decode (single.word uf.msb (uf.toNat % 2 ^ 31)) := by
  rw [decode, ← toNat_eq_word]

theorem body_lt (uf : BitVec 32) : uf.toNat % 2 ^ 31 < 2 ^ 31 := Nat.mod_lt _ (Nat.two_pow_pos 31)

theorem infinity_single : single.infinity = 255 * 2 ^ 23 := rfl

end Fields

/-! ### Equality -/

section Equality
variable {uf ug : BitVec 32}

theorem is_nan_iff (uf : BitVec 32) :
    ((uf >>> 23) &&& 0xFF) = 0xFF ∧ (uf &&& 0x007FFFFF) ≠ 0 ↔ decode uf = .nan := by
  have hbody := body_lt uf
  rw [decode_eq, Format.decode_nan_iff hbody, infinity_single, Ne, ← BitVec.toNat_inj,
    ← BitVec.toNat_inj, toNat_exp, toNat_frac]
  change _ = 255 ∧ ¬ _ = 0 ↔ _
  omega

theorem is_zero_iff (uf : BitVec 32) : uf <<< 1 = 0 ↔ uf.toNat % 2 ^ 31 = 0 := by
  rw [← BitVec.toNat_inj, BitVec.toNat_shiftLeft, Nat.shiftLeft_eq]
  change _ = 0 ↔ _
  omega

theorem eq_iff_fields (uf ug : BitVec 32) :
    uf = ug ↔ uf.msb = ug.msb ∧ uf.toNat % 2 ^ 31 = ug.toNat % 2 ^ 31 := by
  constructor
  · rintro rfl
    exact ⟨rfl, rfl⟩
  · rintro ⟨hsign, hbody⟩
    apply BitVec.eq_of_toNat_eq
    rw [toNat_eq_word uf, toNat_eq_word ug, hsign, hbody]

theorem floatIsEqual_eq_one (uf ug : BitVec 32) : floatIsEqual uf ug = 1 ↔
    decode uf ≠ .nan ∧ decode ug ≠ .nan ∧
      ((uf.toNat % 2 ^ 31 = 0 ∧ ug.toNat % 2 ^ 31 = 0) ∨ uf = ug) := by
  have hne : ¬ (0 : BitVec 32) = 1 := by decide
  simp only [floatIsEqual, is_nan_iff, is_zero_iff]
  by_cases hf : decode uf = .nan
  · rw [if_pos hf]
    exact ⟨fun h => absurd h hne, fun h => absurd hf h.1⟩
  · by_cases hg : decode ug = .nan
    · rw [if_neg hf, if_pos hg]
      exact ⟨fun h => absurd h hne, fun h => absurd hg h.2.1⟩
    · rw [if_neg hf, if_neg hg]
      split
      · rename_i hzero
        exact ⟨fun _ => ⟨hf, hg, Or.inl hzero⟩, fun _ => rfl⟩
      · rename_i hzero
        split
        · rename_i heq
          exact ⟨fun _ => ⟨hf, hg, Or.inr heq⟩, fun _ => rfl⟩
        · rename_i heq
          exact ⟨fun h => absurd h hne, fun h => (h.2.2.elim hzero heq).elim⟩

/-- 1 for two patterns of the same number or of the same infinity, and for no others. -/
theorem floatIsEqual_iff (uf ug : BitVec 32) : floatIsEqual uf ug = 1 ↔
    decode uf ≠ .nan ∧ decode ug ≠ .nan ∧ decode uf = decode ug := by
  rw [floatIsEqual_eq_one]
  refine and_congr_right fun hf => and_congr_right fun hg => ?_
  have hf' : uf.toNat % 2 ^ 31 ≤ single.infinity := by
    rw [Ne, decode_eq, Format.decode_nan_iff (body_lt uf)] at hf
    exact Nat.le_of_not_lt hf
  have hg' : ug.toNat % 2 ^ 31 ≤ single.infinity := by
    rw [Ne, decode_eq, Format.decode_nan_iff (body_lt ug)] at hg
    exact Nat.le_of_not_lt hg
  rw [decode_eq, decode_eq, Format.decode_inj hf' hg', eq_iff_fields, or_comm]

end Equality

/-! ### Four times -/

/-- The pattern of four times the magnitude of `m`, if there is room for it. -/
def quadruple (m : ℕ) : ℕ :=
  if 2 ^ 23 ≤ m then m + 2 * 2 ^ 23
  else if 2 ^ 22 ≤ m then 2 * m + 1 * 2 ^ 23
  else 4 * m

section Scale
variable {uf : BitVec 32} {m : ℕ}

/-- Normal numbers, denormals that end two binades up, and the others. -/
theorem units_quadruple (m : ℕ) : single.units (quadruple m) = 4 * single.units m := by
  have hfw : 2 ^ single.fw = 2 ^ 23 := rfl
  rw [quadruple]
  split
  · rename_i hnormal
    have hscale := Format.units_scale (F := single) (m := m) hnormal 2
    rw [hfw] at hscale
    rw [hscale, Nat.mul_comm]
    rfl
  · rename_i hlow
    have hself : single.units m = m := Format.units_small (by rw [hfw]; omega)
    split
    · have hscale := Format.units_scale (F := single) (m := 2 * m) (by rw [hfw]; omega) 1
      rw [hfw] at hscale
      rw [hscale, hself, Format.units_small (by rw [hfw]; omega)]
      omega
    · rw [hself, Format.units_small (by rw [hfw]; omega)]

/-- The bit that the special branch for denormals looks at. -/
theorem top_bit_iff {frac : BitVec 32} (hfrac : frac.toNat < 2 ^ 23) :
    frac &&& 0x400000 ≠ 0 ↔ 2 ^ 22 ≤ frac.toNat := by
  rw [Ne, ← BitVec.toNat_inj, BitVec.toNat_and]
  change ¬ frac.toNat &&& 2 ^ 22 = 0 ↔ _
  rw [← Ne, Word.and_two_pow_ne_zero]
  omega

theorem msb_toNat (uf : BitVec 32) : uf.msb.toNat = uf.toNat / 2 ^ 31 := by
  have hword : uf.toNat = uf.msb.toNat * 2 ^ 31 + uf.toNat % 2 ^ 31 := toNat_eq_word uf
  omega

/-- NaN, the infinities and the zeros come back. -/
theorem floatScale4_same (h : single.infinity ≤ uf.toNat % 2 ^ 31 ∨ uf.toNat % 2 ^ 31 = 0) :
    floatScale4 uf = uf := by
  have hexp := toNat_exp uf
  have hfrac := toNat_frac uf
  rw [infinity_single] at h
  simp only [floatScale4]
  rw [if_pos]
  rw [← BitVec.toNat_inj, ← BitVec.toNat_inj, ← BitVec.toNat_inj, hexp, hfrac]
  change _ = 255 ∨ _ = 0 ∧ _ = 0
  omega

/-- 2 more in the exponent field, or infinity. -/
theorem scale_normal (uf : BitVec 32) {exp frac : BitVec 32} (hexp : exp.toNat ≠ 0)
    (hlt : exp.toNat < 255) (hfrac : frac.toNat < 2 ^ 23) :
    (if exp + 2 ≥ 0xFF then (uf &&& 0x80000000#32) ||| (0xFF#32 <<< 23) ||| 0#32
      else (uf &&& 0x80000000#32) ||| ((exp + 2) <<< 23) ||| frac).toNat =
      2 ^ 31 * (uf.toNat / 2 ^ 31) +
        min (quadruple (exp.toNat * 2 ^ 23 + frac.toNat)) (255 * 2 ^ 23) := by
  have hadd : (exp + 2).toNat = exp.toNat + 2 := toNat_add_of_lt 2 (by omega)
  have htop : exp + 2 ≥ 0xFF ↔ 255 ≤ exp.toNat + 2 := by
    rw [← hadd]
    rfl
  have hnormal : 2 ^ 23 ≤ exp.toNat * 2 ^ 23 + frac.toNat := by omega
  rw [quadruple, if_pos hnormal]
  split
  · rename_i hbig
    have hge := htop.mp hbig
    rw [toNat_fields uf (by decide) (by decide)]
    change 2 ^ 31 * (uf.toNat / 2 ^ 31) + (255 * 2 ^ 23 + 0) = _
    omega
  · rename_i hroom
    have hsmall := mt htop.mpr hroom
    rw [toNat_fields uf (by omega) (by omega), hadd]
    omega

/-- The special branch, and the shift that may carry into the exponent field. -/
theorem scale_denormal (uf : BitVec 32) {exp frac : BitVec 32} (hexp : exp.toNat = 0)
    (hfrac : frac.toNat < 2 ^ 23) :
    (if frac &&& 0x400000 ≠ 0 then
        (uf &&& 0x80000000#32) ||| ((exp + 2) <<< 23) ||| ((frac <<< 1) &&& 0x7FFFFF)
      else (uf &&& 0x80000000#32) ||| (frac <<< 2)).toNat =
      2 ^ 31 * (uf.toNat / 2 ^ 31) + min (quadruple frac.toNat) (255 * 2 ^ 23) := by
  have hbit := top_bit_iff hfrac
  rw [quadruple, if_neg (Nat.not_le.mpr hfrac)]
  split
  · -- a denormal that ends in the second normal binade
    rename_i hset
    have hmid := hbit.mp hset
    have hadd : (exp + 2).toNat = 0 + 2 := hexp ▸ toNat_add_of_lt 2 (by omega)
    have hdouble : ((frac <<< 1) &&& 0x7FFFFF).toNat = 2 * frac.toNat - 2 ^ 23 := by
      rw [toNat_frac, BitVec.toNat_shiftLeft, Nat.shiftLeft_eq]
      omega
    have hfit : 2 * frac.toNat + 1 * 2 ^ 23 ≤ 255 * 2 ^ 23 := by omega
    have hsum : (0 + 2) * 2 ^ 23 + (2 * frac.toNat - 2 ^ 23) = 2 * frac.toNat + 1 * 2 ^ 23 := by omega
    rw [if_pos hmid, toNat_fields uf (by omega) (by omega), hadd, hdouble, hsum, Nat.min_eq_left hfit]
  · -- the shift stays below, or carries into the first one
    rename_i hclear
    have hsmall := mt hbit.mpr hclear
    have hshift : (frac <<< 2).toNat = 4 * frac.toNat := by
      rw [BitVec.toNat_shiftLeft, Nat.shiftLeft_eq]
      omega
    have hfit : 4 * frac.toNat ≤ 255 * 2 ^ 23 := by omega
    rw [if_neg hsmall, BitVec.toNat_or, toNat_sign, hshift, ← Nat.two_pow_add_eq_or_of_lt (by omega),
      Nat.min_eq_left hfit]

/-- The result as a pattern. -/
theorem floatScale4_word (h0 : uf.toNat % 2 ^ 31 ≠ 0) (hinf : uf.toNat % 2 ^ 31 < single.infinity) :
    (floatScale4 uf).toNat =
      single.word uf.msb (min (quadruple (uf.toNat % 2 ^ 31)) single.infinity) := by
  have hexp := toNat_exp uf
  have hfrac := toNat_frac uf
  have hword : ∀ m, single.word uf.msb m = 2 ^ 31 * (uf.toNat / 2 ^ 31) + m := by
    intro m
    rw [Nat.mul_comm, ← msb_toNat]
    rfl
  rw [hword, infinity_single]
  rw [infinity_single] at hinf
  simp only [floatScale4]
  generalize (uf >>> 23) &&& 0xFF = exp at hexp ⊢
  generalize uf &&& 0x007FFFFF = frac at hfrac ⊢
  have hbody : uf.toNat % 2 ^ 31 = exp.toNat * 2 ^ 23 + frac.toNat := by omega
  have hexp0 : exp ≠ 0 ↔ exp.toNat ≠ 0 := not_congr BitVec.toNat_inj.symm
  have hnot : ¬ (exp = 0xFF ∨ exp = 0 ∧ frac = 0) := by
    rw [← BitVec.toNat_inj, ← BitVec.toNat_inj, ← BitVec.toNat_inj]
    change ¬ (_ = 255 ∨ _ = 0 ∧ _ = 0)
    omega
  rw [if_neg hnot, hbody]
  by_cases hne : exp.toNat = 0
  · rw [if_neg (fun h => hexp0.mp h hne), scale_denormal uf hne (by omega), hne, Nat.zero_mul,
      Nat.zero_add]
  · rw [if_pos (hexp0.mpr hne), scale_normal uf hne (by omega) (by omega)]

/-- Under either sign. -/
theorem signed_quadruple (s : Bool) (m : ℕ) :
    single.signed s (quadruple m) = 4 * single.signed s m := by
  have hmag : (single.units (quadruple m) : ℚ) * single.ulp = 4 * (single.units m * single.ulp) := by
    rw [units_quadruple, Nat.cast_mul, mul_assoc]
    rfl
  cases s with
  | false => rw [Format.signed, Format.signed, if_neg (by simp), if_neg (by simp), hmag]
  | true => rw [Format.signed, Format.signed, if_pos rfl, if_pos rfl, hmag, mul_neg]

/-- Infinity has the pattern that `2^128` would have. -/
theorem infinity_value : (single.units single.infinity : ℚ) * single.ulp = 2 ^ 128 := by
  have hunits : single.units single.infinity = 2 ^ 23 * 2 ^ 254 :=
    Format.units_normal (F := single) (e := 255) (f := 0) (by omega) (Nat.two_pow_pos _)
  have hulp : single.ulp = 2 ^ (-149 : ℤ) := rfl
  have hsplit : (2 : ℚ) ^ 23 * 2 ^ 254 = 2 ^ 128 * 2 ^ 149 := by
    rw [← pow_add, ← pow_add]
  rw [hunits, hulp, Nat.cast_mul, Nat.cast_pow, Nat.cast_pow, Nat.cast_ofNat, hsplit, zpow_neg,
    mul_assoc]
  exact mul_right_eq_self₀.mpr (Or.inl (mul_inv_cancel₀ (by norm_num)))

/-- There is room below infinity for the magnitudes under `2^128`. -/
theorem signed_lt_iff (s : Bool) (m : ℕ) : |single.signed s m| < 2 ^ 128 ↔ m < single.infinity := by
  rw [Format.abs_signed, ← infinity_value, mul_lt_mul_iff_left₀ Format.ulp_pos, Nat.cast_lt,
    Format.units_strictMono.lt_iff_lt]

theorem floatScale4_decode (h0 : uf.toNat % 2 ^ 31 ≠ 0) (hinf : uf.toNat % 2 ^ 31 < single.infinity) :
    decode (floatScale4 uf) =
      if quadruple (uf.toNat % 2 ^ 31) < single.infinity then
        .fin (4 * single.signed uf.msb (uf.toNat % 2 ^ 31))
      else .inf uf.msb := by
  have hlt : single.infinity < 2 ^ 31 := Format.infinity_lt
  rw [decode, floatScale4_word h0 hinf,
    Format.decode_word (lt_of_le_of_lt (Nat.min_le_right _ _) hlt), ← signed_quadruple]
  by_cases hroom : quadruple (uf.toNat % 2 ^ 31) < single.infinity
  · rw [Nat.min_eq_left hroom.le, if_pos hroom, if_pos hroom]
  · rw [Nat.min_eq_right (Nat.le_of_not_lt hroom), if_neg (Nat.lt_irrefl _), if_pos rfl, if_neg hroom]

theorem floatScale4_msb (uf : BitVec 32) : (floatScale4 uf).msb = uf.msb := by
  by_cases h : single.infinity ≤ uf.toNat % 2 ^ 31 ∨ uf.toNat % 2 ^ 31 = 0
  · rw [floatScale4_same h]
  · obtain ⟨hinf, h0⟩ := not_or.mp h
    have hlt : single.infinity < 2 ^ 31 := Format.infinity_lt
    have hword := congrArg single.negative (floatScale4_word h0 (Nat.lt_of_not_le hinf))
    rw [Format.negative_word (lt_of_le_of_lt (Nat.min_le_right _ _) hlt)] at hword
    rw [← hword, BitVec.msb_eq_getLsbD_last]
    rfl

/-- NaN, infinities and zeros come back; a number comes back four times as large, or as the infinity of
its sign from `2^128` on. -/
theorem floatScale4_exact (uf : BitVec 32) :
    (decode uf = .nan → floatScale4 uf = uf) ∧
    (∀ s, decode uf = .inf s → floatScale4 uf = uf) ∧
    (∀ q, decode uf = .fin q →
      (q = 0 → floatScale4 uf = uf) ∧
      decode (floatScale4 uf) = if |4 * q| < 2 ^ 128 then .fin (4 * q) else .inf uf.msb) ∧
    (floatScale4 uf).msb = uf.msb := by
  have hdecode := decode_eq uf
  rw [Format.decode_word (body_lt uf)] at hdecode
  refine ⟨fun hnan => ?_, fun s hsign => ?_, fun q hq => ?_, floatScale4_msb uf⟩
  · apply floatScale4_same
    rw [decode_eq, Format.decode_nan_iff (body_lt uf)] at hnan
    exact Or.inl hnan.le
  · apply floatScale4_same
    refine Or.inl (Nat.le_of_not_lt fun hlt => ?_)
    rw [hsign, if_pos hlt] at hdecode
    cases hdecode
  · by_cases hlt : uf.toNat % 2 ^ 31 < single.infinity
    · rw [hq, if_pos hlt, Datum.fin.injEq] at hdecode
      subst hdecode
      refine ⟨fun hzero => floatScale4_same (Or.inr (Format.signed_eq_zero.mp hzero)), ?_⟩
      by_cases h0 : uf.toNat % 2 ^ 31 = 0
      · rw [floatScale4_same (Or.inr h0), hq, Format.signed_eq_zero.mpr h0, mul_zero,
          if_pos (by norm_num)]
      · rw [floatScale4_decode h0 hlt, ← signed_quadruple]
        simp only [signed_lt_iff]
    · rw [hq, if_neg hlt] at hdecode
      split at hdecode <;> cases hdecode

end Scale

end Labs.Datalab
