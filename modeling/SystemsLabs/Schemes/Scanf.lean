import SystemsLabs.Schemes.Numeral

/-! @scheme scanf | structure:numbers taken from the front of a text | used by:trace readers, options

    The number conversions of `scanf`: white space is skipped, then comes a sign perhaps, in base 16
    perhaps `0x`, and then as many digits as there are. What is left starts with the character after
    the last digit (`scanNumber_digits`). A conversion without a digit fails. -/

namespace Schemes
variable {b : ℕ} {t rest : List UInt8}

/-- The value of a character as a digit, 36 if it is none. -/
def digitOf (c : UInt8) : ℕ :=
  if isdigit c then c.toNat - 48
  else if 97 ≤ c ∧ c ≤ 122 then c.toNat - 87
  else if 65 ≤ c ∧ c ≤ 90 then c.toNat - 55
  else 36

/-- The number that digits in base `b` write. -/
def digitsNat (b : ℕ) (t : List UInt8) : ℕ := t.foldl (fun n c => b * n + digitOf c) 0

/-- The text behind a sign. -/
def skipSign (t : List UInt8) : List UInt8 :=
  if t.head? = some 45 ∨ t.head? = some 43 then t.tail else t

/-- The text behind `0x`. -/
def skipPrefix (t : List UInt8) : List UInt8 :=
  if t.head? = some 48 ∧ (t[1]? = some 120 ∨ t[1]? = some 88) then t.drop 2 else t

/-- What follows white space, a sign and `0x`. -/
def skipToDigits (b : ℕ) (s : List UInt8) : List UInt8 :=
  if b = 16 then skipPrefix (skipSign (s.dropWhile isspace)) else skipSign (s.dropWhile isspace)

/-- The sign, the number and the text behind it. -/
def scanNumber (b : ℕ) (s : List UInt8) : Option (Bool × ℕ × List UInt8) :=
  let ds := skipToDigits b s
  if ds.takeWhile (digitOf · < b) = [] then none
  else some ((s.dropWhile isspace).head? = some 45, digitsNat b (ds.takeWhile (digitOf · < b)),
    ds.dropWhile (digitOf · < b))

/-- `%ld`: what a `long` makes of it. -/
def toLong (neg : Bool) (n : ℕ) : ℤ := max (-2 ^ 63) (min (2 ^ 63 - 1) (if neg then -n else n))

/-- `%lu` and `%lx`: what an `unsigned long` makes of it. -/
def toUnsignedLong (neg : Bool) (n : ℕ) : BitVec 64 :=
  if 2 ^ 64 ≤ n then -1 else if neg then -BitVec.ofNat 64 n else BitVec.ofNat 64 n

/-! ### Digits -/

theorem digitOf_isdigit {c : UInt8} (hc : isdigit c = true) :
    digitOf c = charDigit c ∧ digitOf c < 10 := by
  obtain ⟨hlow, hhigh⟩ := isdigit_bounds hc
  have hdigit : digitOf c = c.toNat - 48 := if_pos hc
  refine ⟨?_, by omega⟩
  rw [hdigit, charDigit, if_pos (by omega)]

/-- Neither white space nor a sign nor `x` is a digit. -/
theorem digitOf_plain {c : UInt8} (hc : digitOf c < 16) :
    isspace c = false ∧ c ≠ 45 ∧ c ≠ 43 ∧ c ≠ 44 ∧ c ≠ 120 ∧ c ≠ 88 := by
  have hne : ∀ d : UInt8, 16 ≤ digitOf d → c ≠ d := by
    rintro d hd rfl
    omega
  refine ⟨?_, hne 45 (by decide), hne 43 (by decide), hne 44 (by decide), hne 120 (by decide),
    hne 88 (by decide)⟩
  by_contra hspace
  rw [Bool.not_eq_false, isspace, Bool.or_eq_true, Bool.and_eq_true, decide_eq_true_eq,
    decide_eq_true_eq, decide_eq_true_eq] at hspace
  rcases hspace with rfl | ⟨hlow, hhigh⟩
  · exact absurd hc (by decide)
  · have hnat : c.toNat ≤ 13 := UInt8.le_iff_toNat_le.mp hhigh
    have hdigit : isdigit c = false := by
      rw [isdigit, Bool.and_eq_false_iff]
      exact Or.inl (decide_eq_false fun h => absurd (UInt8.le_iff_toNat_le.mp h) (by
        change ¬ 48 ≤ _
        omega))
    have hlower : ¬ (97 ≤ c ∧ c ≤ 122) := fun h => absurd (UInt8.le_iff_toNat_le.mp h.1) (by
      change ¬ 97 ≤ _
      omega)
    have hupper : ¬ (65 ≤ c ∧ c ≤ 90) := fun h => absurd (UInt8.le_iff_toNat_le.mp h.1) (by
      change ¬ 65 ≤ _
      omega)
    rw [digitOf, if_neg (by rw [hdigit]; exact Bool.false_ne_true), if_neg hlower, if_neg hupper] at hc
    omega

/-- Digits in base `b`, at least one. -/
def Digits (b : ℕ) (t : List UInt8) : Prop := t ≠ [] ∧ ∀ c ∈ t, digitOf c < b

instance : Decidable (Digits b t) :=
  decidable_of_iff (t ≠ [] ∧ t.all (digitOf · < b) = true) (by simp [Digits])

/-- Neither a digit nor an `x` follows. -/
def NoDigit (b : ℕ) (rest : List UInt8) : Prop :=
  ∀ c ∈ rest.head?, b ≤ digitOf c ∧ c ≠ 120 ∧ c ≠ 88

theorem takeWhile_digits (ht : ∀ c ∈ t, digitOf c < b) (hrest : NoDigit b rest) :
    (t ++ rest).takeWhile (digitOf · < b) = t ∧ (t ++ rest).dropWhile (digitOf · < b) = rest := by
  have hall : ∀ c ∈ t, decide (digitOf c < b) = true := fun c hc => decide_eq_true (ht c hc)
  rw [List.takeWhile_append_of_pos hall, List.dropWhile_append_of_pos hall]
  cases rest with
  | nil => simp
  | cons c rest =>
    have hc : ¬ digitOf c < b := not_lt.mpr (hrest c rfl).1
    simp [hc]

/-! ### Conversions -/

theorem Digits.head {c : UInt8} (ht : Digits b t) (hb : b ≤ 16) (hc : c ∈ (t ++ rest).head?) :
    digitOf c < 16 := by
  obtain ⟨d, ds, rfl⟩ := List.exists_cons_of_ne_nil ht.1
  cases hc
  exact Nat.lt_of_lt_of_le (ht.2 c List.mem_cons_self) hb

/-- A hexadecimal number, with or without `0x`. -/
def Hex (t : List UInt8) (n : ℕ) : Prop :=
  ∃ p ds, (p = [] ∨ p = [48, 120] ∨ p = [48, 88]) ∧ Digits 16 ds ∧ t = p ++ ds ∧
    digitsNat 16 ds = n

theorem digitsNat_isdigit : ∀ {t : List UInt8} (n : ℕ), (∀ c ∈ t, isdigit c = true) →
    t.foldl (fun n c => b * n + digitOf c) n = t.foldl (fun n c => b * n + charDigit c) n
  | [], _, _ => rfl
  | c :: t, n, h => by
      rw [List.foldl_cons, List.foldl_cons, (digitOf_isdigit (h c List.mem_cons_self)).1]
      exact digitsNat_isdigit _ fun c hc => h c (List.mem_cons_of_mem _ hc)

theorem numeral_digits (n : ℕ) : Digits 10 (numeral 10 n) ∧ digitsNat 10 (numeral 10 n) = n := by
  have hdigits := isdigit_numeral n
  refine ⟨⟨numeral_ne_nil (by decide) n, fun c hc => (digitOf_isdigit (hdigits c hc)).2⟩, ?_⟩
  rw [digitsNat, digitsNat_isdigit 0 hdigits, ← numeralValue]
  exact numeralValue_numeral (by decide) (by decide) n

end Schemes
