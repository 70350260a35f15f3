import Mathlib.Data.Nat.Digits.Lemmas
import SystemsLabs.Schemes.Text

/-! @scheme numeral | structure:numbers as texts in a base | used by:formatted output

    The text of a number in a base from 2 to 36: its digits, highest first, `0` for zero. Nothing is
    lost (`numeralValue_numeral`), there is no leading zero, and the length is bounded by the power of
    the base above the number. In base 10 it is what `%d` reads back. -/

namespace Schemes
variable {b d k v : ℕ}

/-- A digit as it is written. -/
def digitChar (d : ℕ) : UInt8 := UInt8.ofNat (if d < 10 then d + 48 else d - 10 + 97)

/-- The digit that a character writes. -/
def charDigit (c : UInt8) : ℕ := if c.toNat < 97 then c.toNat - 48 else c.toNat - 97 + 10

/-- The digits of a number, lowest first; zero has one. -/
def digitsOf (b v : ℕ) : List ℕ := if v = 0 then [0] else Nat.digits b v

def numeral (b v : ℕ) : List UInt8 := ((digitsOf b v).map digitChar).reverse

/-- The number that a string of digits in base `b` writes. -/
def numeralValue (b : ℕ) (t : List UInt8) : ℕ := t.foldl (fun n c => b * n + charDigit c) 0

/-- A number with its sign. -/
def intNumeral (b : ℕ) (n : ℤ) : List UInt8 := (if n < 0 then [45] else []) ++ numeral b n.natAbs

/-- The number that a string of digits writes, after a sign. -/
def intValue (b : ℕ) : List UInt8 → ℤ
  | [] => 0
  | c :: t => if c = 45 then -numeralValue b t else numeralValue b (c :: t)

theorem digitChar_toNat (hd : d < 36) :
    (digitChar d).toNat = if d < 10 then d + 48 else d - 10 + 97 := by
  rw [digitChar, UInt8.toNat_ofNat_of_lt']
  change _ < 256
  split <;> omega

theorem charDigit_digitChar (hd : d < 36) : charDigit (digitChar d) = d := by
  rw [charDigit, digitChar_toNat hd]
  split <;> split at * <;> omega

/-- A digit is neither a sign nor a space. -/
theorem digitChar_ge (hd : d < 36) : 48 ≤ (digitChar d).toNat := by
  rw [digitChar_toNat hd]
  split <;> omega

/-! ### One digit at a time -/

/-- The digits come by division, as long as something is left. -/
theorem digitsOf_step (hb : 1 < b) (v : ℕ) :
    digitsOf b v = v % b :: if v / b = 0 then [] else digitsOf b (v / b) := by
  rcases Nat.eq_zero_or_pos v with rfl | hv
  · simp [digitsOf]
  · rw [digitsOf, if_neg hv.ne', Nat.digits_def' hb hv]
    split
    · rename_i hq
      rw [hq, Nat.digits_zero]
    · rename_i hq
      rw [digitsOf, if_neg hq]

theorem digitsOf_lt (hb : 1 < b) (hd : d ∈ digitsOf b v) : d < b := by
  rw [digitsOf] at hd
  split at hd
  · rw [List.mem_singleton.mp hd]
    omega
  · exact Nat.digits_lt_base hb hd

theorem numeral_step (hb : 1 < b) (v : ℕ) :
    numeral b v = (if v / b = 0 then [] else numeral b (v / b)) ++ [digitChar (v % b)] := by
  rw [numeral, digitsOf_step hb]
  split
  · rfl
  · rw [List.map_cons, List.reverse_cons, numeral]

theorem numeral_ne_nil (hb : 1 < b) (v : ℕ) : numeral b v ≠ [] := by
  rw [numeral_step hb]
  simp

/-! ### What the text says -/

theorem numeralValue_snoc (t : List UInt8) (c : UInt8) :
    numeralValue b (t ++ [c]) = b * numeralValue b t + charDigit c := by
  rw [numeralValue, List.foldl_append]
  rfl

theorem numeralValue_numeral (hb : 1 < b) (hmax : b ≤ 36) (v : ℕ) :
    numeralValue b (numeral b v) = v := by
  induction v using Nat.strongRecOn with
  | _ v ih =>
    have hmod : v % b < b := Nat.mod_lt v (by omega)
    rw [numeral_step hb, numeralValue_snoc, charDigit_digitChar (by omega)]
    split
    · rename_i hq
      have hsplit := Nat.div_add_mod v b
      rw [hq] at hsplit
      exact hsplit
    · rename_i hq
      have hv : 0 < v := Nat.pos_of_ne_zero fun h => hq (by rw [h, Nat.zero_div])
      rw [ih (v / b) (Nat.div_lt_self hv hb)]
      exact Nat.div_add_mod v b

theorem mem_numeral (hb : 1 < b) {c : UInt8} (hc : c ∈ numeral b v) : ∃ d < b, c = digitChar d := by
  rw [numeral, List.mem_reverse, List.mem_map] at hc
  obtain ⟨d, hd, rfl⟩ := hc
  exact ⟨d, digitsOf_lt hb hd, rfl⟩

theorem numeral_ge (hb : 1 < b) (hmax : b ≤ 36) {c : UInt8} (hc : c ∈ numeral b v) :
    48 ≤ c.toNat := by
  obtain ⟨d, hd, rfl⟩ := mem_numeral hb hc
  exact digitChar_ge (Nat.lt_of_lt_of_le hd hmax)

theorem numeral_not_mem (hb : 1 < b) (hmax : b ≤ 36) {c : UInt8} (hc : c.toNat < 48) :
    c ∉ numeral b v := fun h => absurd (numeral_ge hb hmax h) (by omega)

/-- The text of a number with its sign is read back as the number. -/
theorem intValue_intNumeral (hb : 1 < b) (hmax : b ≤ 36) (n : ℤ) :
    intValue b (intNumeral b n) = n := by
  have hvalue := numeralValue_numeral hb hmax n.natAbs
  rw [intNumeral]
  split
  · rw [List.singleton_append, intValue, if_pos rfl, hvalue]
    omega
  · obtain ⟨c, t, ht⟩ := List.exists_cons_of_ne_nil (numeral_ne_nil hb n.natAbs)
    have hsign : ¬ c = 45 := by
      rintro rfl
      exact numeral_not_mem hb hmax (by decide) (ht ▸ List.mem_cons_self)
    rw [List.nil_append, ht, intValue, if_neg hsign, ← ht, hvalue]
    omega

theorem intNumeral_not_nul (hb : 1 < b) (hmax : b ≤ 36) (n : ℤ) : 0 ∉ intNumeral b n := by
  have hnul : (0 : UInt8) ∉ numeral b n.natAbs := numeral_not_mem hb hmax (by decide)
  rw [intNumeral]
  split
  · simpa using hnul
  · simpa using hnul

/-- A numeral starts with 0 only if it is that of zero. -/
theorem numeral_head (hb : 1 < b) (hmax : b ≤ 36) (hv : v ≠ 0) :
    (numeral b v).head? ≠ some (digitChar 0) := by
  have hne : (Nat.digits b v).map digitChar ≠ [] := by
    simpa using Nat.digits_ne_nil_iff_ne_zero.mpr hv
  rw [numeral, digitsOf, if_neg hv, List.head?_reverse, List.getLast?_eq_some_getLast hne,
    List.getLast_map]
  intro h
  have hlast := Nat.getLast_digit_ne_zero b hv
  have hlt := Nat.digits_lt_base hb (List.getLast_mem (Nat.digits_ne_nil_iff_ne_zero.mpr hv))
  have hzero := congrArg charDigit (Option.some.inj h)
  rw [charDigit_digitChar (by omega), charDigit_digitChar (by omega)] at hzero
  exact hlast hzero

theorem digitsOf_length (hb : 1 < b) (hk : 0 < k) (hv : v < b ^ k) : (digitsOf b v).length ≤ k := by
  rw [digitsOf]
  split
  · exact hk
  · exact (Nat.digits_length_le_iff hb v).mpr hv

/-! ### Decimal numbers -/

theorem isdigit_digitChar (hd : d < 10) : isdigit (digitChar d) = true := by
  have hnat := digitChar_toNat (Nat.lt_trans hd (by decide))
  rw [if_pos hd] at hnat
  simp only [isdigit, Bool.and_eq_true, decide_eq_true_eq, UInt8.le_iff_toNat_le, hnat]
  change 48 ≤ d + 48 ∧ d + 48 ≤ 57
  omega

theorem isdigit_numeral (v : ℕ) : ∀ c ∈ numeral 10 v, isdigit c = true := by
  intro c hc
  obtain ⟨d, hd, rfl⟩ := mem_numeral (by decide) hc
  exact isdigit_digitChar hd

/-- On digits the two readings agree. -/
theorem digitsValue_eq {t : List UInt8} (ht : ∀ c ∈ t, isdigit c = true) :
    digitsValue t = numeralValue 10 t := by
  induction t using List.reverseRecOn with
  | nil => rfl
  | append_singleton t c ih =>
    obtain ⟨hlow, hhigh⟩ := isdigit_bounds (ht c (by simp))
    have hrest := ih fun c hc => ht c (List.mem_append_left _ hc)
    have hdigit : charDigit c = c.toNat - 48 := if_pos (by omega)
    rw [digitsValue, List.foldl_append, ← digitsValue, hrest, numeralValue_snoc, hdigit]
    simp only [List.foldl_cons, List.foldl_nil]
    omega

theorem decimal_numeral (v : ℕ) : Decimal (numeral 10 v) v := by
  refine ⟨numeral_ne_nil (by decide) v, isdigit_numeral v, ?_⟩
  rw [digitsValue_eq (isdigit_numeral v), numeralValue_numeral (by decide) (by decide)]

end Schemes
