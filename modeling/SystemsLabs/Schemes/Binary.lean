import Mathlib.Algebra.Order.Field.Power
import Mathlib.Algebra.Order.Field.Rat
import Mathlib.Order.Monotone.Basic
import Mathlib.Tactic.FieldSimp
import Mathlib.Tactic.Linarith
import Mathlib.Tactic.NormNum
import Mathlib.Tactic.Ring

/-! @scheme binary | structure:binary interchange formats | used by:floating-point bit patterns

    A pattern has `fw` fraction bits below `ew` exponent bits below the sign. The patterns without the
    sign, read as naturals, are in the order of the magnitudes they stand for: in units of the least
    denormal the magnitude of `m + 1` is that of `m` plus `2^(e-1)`, or plus 1 where the exponent field
    `e` is 0. So different patterns stand for different values, except for the two zeros, a carry out of
    the fraction goes to the next number, and infinity sits where the next magnitude would be. -/

namespace Schemes

structure Format where
  fw : ℕ
  ew : ℕ
  ew_pos : 0 < ew

/-- What a pattern stands for; both zeros are 0. -/
inductive Datum where
  | nan
  | inf (negative : Bool)
  | fin (q : ℚ)
  deriving DecidableEq

namespace Format
variable (F : Format)

def fraction (n : ℕ) : ℕ := n % 2 ^ F.fw

def exponent (n : ℕ) : ℕ := n / 2 ^ F.fw % 2 ^ F.ew

def negative (n : ℕ) : Bool := n.testBit (F.fw + F.ew)

def bias : ℤ := 2 ^ (F.ew - 1) - 1

/-- The magnitude of a finite pattern, denormal or normal. -/
def magnitude (n : ℕ) : ℚ :=
  if F.exponent n = 0 then F.fraction n / 2 ^ F.fw * 2 ^ (1 - F.bias)
  else (1 + F.fraction n / 2 ^ F.fw) * 2 ^ ((F.exponent n : ℤ) - F.bias)

def decode (n : ℕ) : Datum :=
  if F.exponent n = 2 ^ F.ew - 1 then
    if F.fraction n = 0 then .inf (F.negative n) else .nan
  else .fin (if F.negative n then -F.magnitude n else F.magnitude n)

/-! ### Patterns without the sign -/

/-- The magnitude in units of the least denormal. -/
def units (m : ℕ) : ℕ :=
  if m / 2 ^ F.fw = 0 then m else (2 ^ F.fw + m % 2 ^ F.fw) * 2 ^ (m / 2 ^ F.fw - 1)

/-- The least denormal. -/
def ulp : ℚ := 2 ^ (1 - F.bias - F.fw)

/-- The pattern of infinity. -/
def infinity : ℕ := (2 ^ F.ew - 1) * 2 ^ F.fw

variable {F} {m n k : ℕ} {s : Bool}

theorem ulp_pos : 0 < F.ulp := by
  rw [ulp]
  exact zpow_pos (by norm_num) _

theorem units_zero : F.units 0 = 0 := by simp [units]

/-- The next pattern. -/
theorem units_succ (m : ℕ) : F.units (m + 1) = F.units m + 2 ^ (m / 2 ^ F.fw - 1) := by
  have hpos : 0 < 2 ^ F.fw := Nat.two_pow_pos _
  have hlt := Nat.mod_lt m hpos
  have hdiv := Nat.div_add_mod m (2 ^ F.fw)
  generalize hq : m / 2 ^ F.fw = q at hdiv ⊢
  generalize hr : m % 2 ^ F.fw = r at hdiv hlt
  rcases Nat.lt_or_ge (r + 1) (2 ^ F.fw) with hin | hout
  · -- inside the binade
    have hq' : (m + 1) / 2 ^ F.fw = q := by
      rw [← hdiv, Nat.add_assoc, Nat.mul_add_div hpos, Nat.div_eq_of_lt hin, Nat.add_zero]
    have hr' : (m + 1) % 2 ^ F.fw = r + 1 := by
      rw [← hdiv, Nat.add_assoc, Nat.mul_add_mod, Nat.mod_eq_of_lt hin]
    rw [units, units, hq, hq', hr, hr']
    by_cases h0 : q = 0
    · simp [h0]
    · rw [if_neg h0, if_neg h0, ← Nat.add_assoc, Nat.succ_mul]
  · -- on to the next one
    have hend : r + 1 = 2 ^ F.fw := by omega
    have hnext : m + 1 = 2 ^ F.fw * (q + 1) := by rw [Nat.mul_succ]; omega
    have hq' : (m + 1) / 2 ^ F.fw = q + 1 := by rw [hnext, Nat.mul_div_cancel_left _ hpos]
    have hr' : (m + 1) % 2 ^ F.fw = 0 := by rw [hnext, Nat.mul_mod_right]
    rw [units, units, hq, hq', hr, hr', if_neg (Nat.succ_ne_zero q), Nat.add_sub_cancel, Nat.add_zero]
    rcases Nat.eq_zero_or_pos q with rfl | hq0
    · rw [if_pos rfl, pow_zero, Nat.mul_one]
      omega
    · have hdouble : 2 ^ q = 2 * 2 ^ (q - 1) := by
        rw [← pow_succ', Nat.sub_add_cancel hq0]
      rw [if_neg (Nat.ne_of_gt hq0), hdouble, ← hend]
      ring

theorem units_strictMono : StrictMono F.units := by
  refine strictMono_nat_of_lt_succ fun m => ?_
  rw [units_succ]
  exact Nat.lt_add_of_pos_right (Nat.two_pow_pos _)

/-- Up to the end of the first normal binade a pattern is its own magnitude. -/
theorem units_small (hm : m < 2 * 2 ^ F.fw) : F.units m = m := by
  have hdiv := Nat.div_add_mod m (2 ^ F.fw)
  rw [units]
  split
  · rfl
  · rename_i hne
    have hone : m / 2 ^ F.fw = 1 := by
      have hlt : m / 2 ^ F.fw < 2 := Nat.div_lt_of_lt_mul (by rwa [Nat.mul_comm])
      exact Nat.le_antisymm (Nat.le_of_lt_succ hlt) (Nat.one_le_iff_ne_zero.mpr hne)
    rw [hone] at hdiv ⊢
    rw [Nat.sub_self, pow_zero, Nat.mul_one]
    rwa [Nat.mul_one] at hdiv

/-- Adding to the exponent field of a normal number. -/
theorem units_scale (hm : 2 ^ F.fw ≤ m) (k : ℕ) : F.units (m + k * 2 ^ F.fw) = F.units m * 2 ^ k := by
  have hpos : 0 < 2 ^ F.fw := Nat.two_pow_pos _
  have hnormal : 1 ≤ m / 2 ^ F.fw := (Nat.one_le_div_iff hpos).mpr hm
  have hexp : m / 2 ^ F.fw + k - 1 = m / 2 ^ F.fw - 1 + k := by omega
  rw [units, units, Nat.add_mul_div_right _ _ hpos, Nat.add_mul_mod_self_right, if_neg (by omega),
    if_neg (by omega), hexp, pow_add, Nat.mul_assoc]

/-- A significand moved up to a binade, also one that has carried into the next. -/
theorem units_significand {t : ℕ} (hlow : 2 ^ F.fw ≤ t) (hhigh : t ≤ 2 * 2 ^ F.fw) (k : ℕ) :
    F.units (t + k * 2 ^ F.fw) = t * 2 ^ k := by
  rw [units_scale hlow]
  rcases Nat.lt_or_eq_of_le hhigh with hlt | rfl
  · rw [units_small hlt]
  · have hpos : 0 < 2 ^ F.fw := Nat.two_pow_pos _
    have hfirst : F.units (2 ^ F.fw) = 2 ^ F.fw := units_small (by omega)
    have hcarry : F.units (2 ^ F.fw + 1 * 2 ^ F.fw) = 2 ^ F.fw * 2 ^ 1 := by
      rw [units_scale (Nat.le_refl _), hfirst]
    rw [Nat.one_mul, ← Nat.two_mul, pow_one] at hcarry
    rw [hcarry, Nat.mul_comm 2]

/-- A normal pattern from its fields. -/
theorem units_normal {e f : ℕ} (he : 1 ≤ e) (hf : f < 2 ^ F.fw) :
    F.units (e * 2 ^ F.fw + f) = (2 ^ F.fw + f) * 2 ^ (e - 1) := by
  have hpos : 0 < 2 ^ F.fw := Nat.two_pow_pos _
  have hdiv : (e * 2 ^ F.fw + f) / 2 ^ F.fw = e := by
    rw [Nat.mul_comm, Nat.mul_add_div hpos, Nat.div_eq_of_lt hf, Nat.add_zero]
  have hmod : (e * 2 ^ F.fw + f) % 2 ^ F.fw = f := by
    rw [Nat.mul_comm, Nat.mul_add_mod, Nat.mod_eq_of_lt hf]
  rw [units, hdiv, hmod, if_neg (by omega)]

theorem infinity_lt : F.infinity < 2 ^ (F.fw + F.ew) := by
  have hpos : 0 < 2 ^ F.fw := Nat.two_pow_pos _
  have hew : 0 < 2 ^ F.ew := Nat.two_pow_pos _
  rw [infinity, Nat.add_comm, pow_add]
  exact Nat.mul_lt_mul_of_pos_right (by omega) hpos

/-! ### Decoding -/

/-- The magnitude counted in units. -/
theorem magnitude_eq (n : ℕ) :
    F.magnitude n = F.units (n % 2 ^ (F.fw + F.ew)) * F.ulp := by
  have hexp : n % 2 ^ (F.fw + F.ew) / 2 ^ F.fw = F.exponent n := by
    rw [pow_add, Nat.mod_mul_right_div_self, exponent]
  have hfrac : n % 2 ^ (F.fw + F.ew) % 2 ^ F.fw = F.fraction n := by
    rw [pow_add, Nat.mod_mul_right_mod, fraction]
  have hbody := Nat.div_add_mod (n % 2 ^ (F.fw + F.ew)) (2 ^ F.fw)
  rw [hexp, hfrac] at hbody
  have htwo : (2 : ℚ) ≠ 0 := by norm_num
  have hsplit : ∀ z : ℤ, (2 : ℚ) ^ (z - F.fw) = 2 ^ z / 2 ^ F.fw := fun z => by
    rw [zpow_sub₀ htwo, zpow_natCast]
  rw [magnitude, units, hexp, hfrac, ulp, hsplit]
  by_cases h0 : F.exponent n = 0
  · rw [h0, Nat.mul_zero, Nat.zero_add] at hbody
    rw [if_pos h0, if_pos h0, ← hbody]
    ring
  · have hone : ((F.exponent n - 1 : ℕ) : ℤ) = F.exponent n - 1 := by omega
    have hshift : (2 : ℚ) ^ ((F.exponent n : ℤ) - F.bias) =
        2 ^ (F.exponent n - 1) * 2 ^ (1 - F.bias) := by
      rw [← zpow_natCast, ← zpow_add₀ htwo, hone]
      congr 1
      ring
    rw [if_neg h0, if_neg h0, hshift]
    push_cast
    field_simp

/-- The value of a sign and a magnitude. -/
def signed (s : Bool) (m : ℕ) : ℚ := if s then -(F.units m * F.ulp) else F.units m * F.ulp

/-- A pattern is a sign in front of a pattern without. -/
def word (F : Format) (s : Bool) (m : ℕ) : ℕ := s.toNat * 2 ^ (F.fw + F.ew) + m

theorem word_mod (hm : m < 2 ^ (F.fw + F.ew)) : F.word s m % 2 ^ (F.fw + F.ew) = m := by
  rw [word, Nat.mul_comm, Nat.mul_add_mod, Nat.mod_eq_of_lt hm]

theorem negative_word (hm : m < 2 ^ (F.fw + F.ew)) : F.negative (F.word s m) = s := by
  rw [negative, word, Nat.mul_comm, Nat.testBit_two_pow_mul_add _ hm, if_neg (Nat.lt_irrefl _),
    Nat.sub_self]
  cases s <;> rfl

/-- Every pattern is one. -/
theorem word_of_lt (hn : n < 2 ^ (F.fw + F.ew + 1)) :
    F.word (F.negative n) (n % 2 ^ (F.fw + F.ew)) = n := by
  have hdiv := Nat.div_add_mod n (2 ^ (F.fw + F.ew))
  have hlt : n / 2 ^ (F.fw + F.ew) < 2 := Nat.div_lt_of_lt_mul (by rwa [← pow_succ])
  have hsign : (F.negative n).toNat = n / 2 ^ (F.fw + F.ew) := by
    rw [negative, Nat.testBit_eq_decide_div_mod_eq, Nat.mod_eq_of_lt hlt]
    rcases Nat.lt_succ_iff_lt_or_eq.mp hlt with h | h
    · simp [Nat.lt_one_iff.mp h]
    · simp [h]
  rw [word, hsign, Nat.mul_comm, hdiv]

/-- Below the pattern of infinity the patterns are finite, above it they are NaN. -/
theorem decode_word (hm : m < 2 ^ (F.fw + F.ew)) :
    F.decode (F.word s m) =
      if m < F.infinity then .fin (F.signed s m) else if m = F.infinity then .inf s else .nan := by
  have hpos : 0 < 2 ^ F.fw := Nat.two_pow_pos _
  have hexp : F.exponent (F.word s m) = m / 2 ^ F.fw := by
    have hmod := Nat.mod_mul_right_div_self (F.word s m) (2 ^ F.fw) (2 ^ F.ew)
    rw [← pow_add, word_mod hm] at hmod
    exact hmod.symm
  have hfrac : F.fraction (F.word s m) = m % 2 ^ F.fw := by
    have hmod := Nat.mod_mul_right_mod (F.word s m) (2 ^ F.fw) (2 ^ F.ew)
    rw [← pow_add, word_mod hm] at hmod
    exact hmod.symm
  have hmax : m / 2 ^ F.fw < 2 ^ F.ew := Nat.div_lt_of_lt_mul (by rwa [← pow_add])
  have hdiv := Nat.div_add_mod m (2 ^ F.fw)
  rw [decode, hexp, hfrac, negative_word hm, magnitude_eq, word_mod hm]
  by_cases htop : m / 2 ^ F.fw = 2 ^ F.ew - 1
  · have hge : F.infinity ≤ m := by
      rw [infinity, ← htop, Nat.mul_comm]
      omega
    rw [if_pos htop, if_neg (Nat.not_lt.mpr hge)]
    have hend : m = F.infinity ↔ m % 2 ^ F.fw = 0 := by
      rw [infinity, ← htop, Nat.mul_comm]
      omega
    simp only [hend]
  · have hlt : m < F.infinity := by
      have hle : m / 2 ^ F.fw + 1 ≤ 2 ^ F.ew - 1 := by omega
      calc m < 2 ^ F.fw * (m / 2 ^ F.fw + 1) := Nat.lt_mul_div_succ m hpos
        _ = (m / 2 ^ F.fw + 1) * 2 ^ F.fw := Nat.mul_comm _ _
        _ ≤ F.infinity := Nat.mul_le_mul_right _ hle
    rw [if_neg htop, if_pos hlt, signed]

/-! ### Different patterns, different values -/

theorem units_eq_zero : F.units m = 0 ↔ m = 0 := by
  constructor
  · intro h
    exact units_strictMono.injective (h.trans units_zero.symm)
  · rintro rfl
    exact units_zero

theorem abs_signed (s : Bool) (m : ℕ) : |F.signed s m| = F.units m * F.ulp := by
  have hnonneg : 0 ≤ (F.units m : ℚ) * F.ulp := mul_nonneg (Nat.cast_nonneg _) ulp_pos.le
  cases s with
  | false => rw [signed, if_neg (by simp), abs_of_nonneg hnonneg]
  | true => rw [signed, if_pos rfl, abs_neg, abs_of_nonneg hnonneg]

theorem signed_eq_zero : F.signed s m = 0 ↔ m = 0 := by
  rw [← abs_eq_zero, abs_signed, mul_eq_zero, Nat.cast_eq_zero, units_eq_zero]
  exact or_iff_left ulp_pos.ne'

theorem signed_nonneg_iff (hm : m ≠ 0) : 0 ≤ F.signed s m ↔ s = false := by
  have hpos : 0 < (F.units m : ℚ) * F.ulp :=
    mul_pos (Nat.cast_pos.mpr (Nat.pos_of_ne_zero (mt units_eq_zero.mp hm))) ulp_pos
  cases s with
  | false => simpa [signed] using hpos.le
  | true => simpa [signed] using hpos

theorem signed_inj {s' : Bool} {m' : ℕ} :
    F.signed s m = F.signed s' m' ↔ (s = s' ∧ m = m') ∨ (m = 0 ∧ m' = 0) := by
  constructor
  · intro heq
    have habs := congrArg abs heq
    rw [abs_signed, abs_signed, mul_left_inj' ulp_pos.ne', Nat.cast_inj] at habs
    obtain rfl := units_strictMono.injective habs
    rcases Nat.eq_zero_or_pos m with rfl | hpos
    · exact Or.inr ⟨rfl, rfl⟩
    · have hsign := @signed_nonneg_iff F m s hpos.ne'
      rw [heq, signed_nonneg_iff hpos.ne'] at hsign
      refine Or.inl ⟨?_, rfl⟩
      cases s <;> cases s' <;> simp_all
  · rintro (⟨rfl, rfl⟩ | ⟨rfl, rfl⟩)
    · rfl
    · rw [signed_eq_zero.mpr rfl, signed_eq_zero.mpr rfl]

/-- Numbers with the same value have the same pattern, or are zeros. -/
theorem decode_inj {s' : Bool} {m' : ℕ} (hm : m ≤ F.infinity) (hm' : m' ≤ F.infinity) :
    F.decode (F.word s m) = F.decode (F.word s' m') ↔ (s = s' ∧ m = m') ∨ (m = 0 ∧ m' = 0) := by
  have hinf := @infinity_lt F
  have hpos : 0 < F.infinity := by
    have hew : 2 ≤ 2 ^ F.ew := Nat.pow_le_pow_right (Nat.succ_pos 1) F.ew_pos
    exact Nat.mul_pos (by omega) (Nat.two_pow_pos _)
  rw [decode_word (hm.trans_lt hinf), decode_word (hm'.trans_lt hinf)]
  rcases Nat.lt_or_eq_of_le hm with hlt | rfl
  · rcases Nat.lt_or_eq_of_le hm' with hlt' | rfl
    · rw [if_pos hlt, if_pos hlt', Datum.fin.injEq, signed_inj]
    · rw [if_pos hlt, if_neg (Nat.lt_irrefl _), if_pos rfl]
      constructor
      · intro heq
        cases heq
      · rintro (⟨-, rfl⟩ | ⟨-, hzero⟩)
        · exact absurd hlt (Nat.lt_irrefl _)
        · exact absurd hzero hpos.ne'
  · rw [if_neg (Nat.lt_irrefl _), if_pos rfl]
    rcases Nat.lt_or_eq_of_le hm' with hlt' | rfl
    · rw [if_pos hlt']
      constructor
      · intro heq
        cases heq
      · rintro (⟨-, rfl⟩ | ⟨hzero, -⟩)
        · exact absurd hlt' (Nat.lt_irrefl _)
        · exact absurd hzero hpos.ne'
    · rw [if_neg (Nat.lt_irrefl _), if_pos rfl, Datum.inf.injEq]
      constructor
      · exact fun heq => Or.inl ⟨heq, rfl⟩
      · rintro (⟨heq, -⟩ | ⟨hzero, -⟩)
        · exact heq
        · exact absurd hzero hpos.ne'

theorem decode_nan_iff (hm : m < 2 ^ (F.fw + F.ew)) :
    F.decode (F.word s m) = .nan ↔ F.infinity < m := by
  rw [decode_word hm]
  split
  · rename_i hlt
    constructor
    · intro heq
      cases heq
    · exact fun hgt => absurd hlt (Nat.lt_asymm hgt)
  · split
    · rename_i heq
      constructor
      · intro h
        cases h
      · exact fun hgt => absurd heq (Nat.ne_of_gt hgt)
    · rename_i hge hne
      exact ⟨fun _ => by omega, fun _ => rfl⟩

end Format
end Schemes
