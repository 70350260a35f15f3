import Mathlib.Algebra.Order.Ring.Int
import Mathlib.Data.List.Basic
import Mathlib.Data.List.Infix
import Mathlib.Data.List.TakeWhile
import Mathlib.Tactic.Common

/-! @scheme text | structure:C strings as byte lists | used by:request parsing, command lines

    The string functions of the C library on byte lists: a string ends before its first NUL byte,
    `strstr` finds the first occurrence of a pattern, and the conversions of `sscanf` split a string
    into what they assign and the rest. -/

namespace Schemes

/-- Bytes of a 7-bit literal. -/
def str (s : String) : List UInt8 := s.toList.map fun c => UInt8.ofNat c.toNat

/-- The C string in a buffer. -/
def cstr (b : List UInt8) : List UInt8 := b.takeWhile (· ≠ 0)

/-- The rest of a string from the first occurrence of `pat` on. -/
def strstr : List UInt8 → List UInt8 → Option (List UInt8)
  | [], pat => if pat = [] then some [] else none
  | c :: s, pat => if pat.isPrefixOf (c :: s) then some (c :: s) else strstr s pat

/-- `isspace` in the C locale. -/
def isspace (c : UInt8) : Bool := c = 32 || (9 ≤ c && c ≤ 13)

/-- The conversion `%s`. -/
def scanWord (s : List UInt8) : Option (List UInt8 × List UInt8) :=
  let s := s.dropWhile isspace
  match s.takeWhile fun c => !isspace c with
  | [] => none
  | c :: w => some (c :: w, s.dropWhile fun c => !isspace c)

/-- The words that `n` conversions `%s` assign. -/
def scanWords : ℕ → List UInt8 → List (List UInt8)
  | 0, _ => []
  | n + 1, s =>
    match scanWord s with
    | none => []
    | some (w, s) => w :: scanWords n s

/-- The conversion `%[^c]`. -/
def scanUntil (c : UInt8) (s : List UInt8) : Option (List UInt8 × List UInt8) :=
  match s.takeWhile (· ≠ c) with
  | [] => none
  | d :: w => some (d :: w, s.dropWhile (· ≠ c))

def isdigit (c : UInt8) : Bool := 48 ≤ c && c ≤ 57

/-- Outcome of a conversion `%d`: end of input, no number, or the number assigned. -/
inductive ScanInt where
  | eof
  | mismatch
  | value (n : ℤ)
  deriving DecidableEq, Repr

/-- A variable after the conversion, given what it held before. -/
def ScanInt.orElse (old : ℤ) : ScanInt → ℤ
  | .value n => n
  | _ => old

/-- The conversion `%d` as the C library does it: a `long` that saturates, cut down to an `int`. -/
def scanInt (s : List UInt8) : ScanInt :=
  match s.dropWhile isspace with
  | [] => .eof
  | c :: cs =>
    match (if c = 45 ∨ c = 43 then cs else c :: cs).takeWhile isdigit with
    | [] => .mismatch
    | d :: ds =>
      let n : ℤ := (d :: ds).foldl (fun n d => 10 * n + (d.toNat - 48)) 0
      .value ((max (-2 ^ 63) (min (2 ^ 63 - 1) (if c = 45 then -n else n))).bmod (2 ^ 32))

/-- Literal text in a format. -/
def scanLit (pat s : List UInt8) : Option (List UInt8) :=
  if pat.isPrefixOf s then some (s.drop pat.length) else none

theorem strstr_isSome {s pat : List UInt8} : (strstr s pat).isSome ↔ pat <:+: s := by
  induction s with
  | nil =>
    rw [strstr, List.infix_nil]
    split
    · simp_all
    · simp_all
  | cons c s ih =>
    rw [strstr, List.infix_cons_iff]
    split
    · rename_i hp
      simpa using Or.inl (List.isPrefixOf_iff_prefix.mp hp)
    · rename_i hp
      rw [ih]
      refine ⟨Or.inr, fun h => h.resolve_left fun h => hp (List.isPrefixOf_iff_prefix.mpr h)⟩

/-- A property of every byte of a fixed text, by computation. -/
theorem forall_of_all {P : UInt8 → Prop} [DecidablePred P] {s : List UInt8}
    (h : s.all (P ·) = true) : ∀ c ∈ s, P c :=
  fun c hc => of_decide_eq_true (List.all_eq_true.mp h c hc)

theorem ne_of_not_mem {c : UInt8} {w : List UInt8} (hw : c ∉ w) :
    ∀ d ∈ w, decide (d ≠ c) = true := by
  intro d hd
  rw [decide_eq_true_eq]
  rintro rfl
  exact hw hd

/-- A string before a byte that does not occur in it. -/
theorem takeWhile_ne {c : UInt8} {w s : List UInt8} (hw : c ∉ w) :
    (w ++ c :: s).takeWhile (· ≠ c) = w := by
  rw [List.takeWhile_append_of_pos (ne_of_not_mem hw)]
  simp

theorem cstr_append {w b : List UInt8} (hw : 0 ∉ w) : cstr (w ++ b) = w ++ cstr b :=
  List.takeWhile_append_of_pos (ne_of_not_mem hw)

theorem cstr_of_not_mem {b : List UInt8} (hb : 0 ∉ b) : cstr b = b := by
  simpa [cstr] using @cstr_append b [] hb

theorem not_mem_cstr (b : List UInt8) : 0 ∉ cstr b := by
  intro h
  simpa using List.mem_takeWhile_imp h

theorem cstr_append_exists (a b : List UInt8) : ∃ t, cstr (a ++ b) = cstr a ++ t := by
  rw [cstr, cstr, List.takeWhile_append]
  split
  · rename_i hlen
    have hall : a.takeWhile (· ≠ 0) = a := (List.takeWhile_prefix _).eq_of_length hlen
    exact ⟨b.takeWhile (· ≠ 0), by rw [hall]⟩
  · exact ⟨[], (List.append_nil _).symm⟩

theorem strstr_single (s : List UInt8) (c : UInt8) :
    strstr s [c] = if c ∈ s then some (s.dropWhile (· ≠ c)) else none := by
  induction s with
  | nil => rfl
  | cons d s ih =>
    rw [strstr]
    rcases eq_or_ne c d with rfl | hne
    · simp
    · have hpre : List.isPrefixOf [c] (d :: s) = false := by simp [List.isPrefixOf, hne]
      rw [hpre, if_neg Bool.false_ne_true, ih]
      simp [hne, hne.symm]

/-! ### Words of a longer text -/

theorem scanWord_eq {s w rest : List UInt8} : scanWord s = some (w, rest) ↔
    w ≠ [] ∧ (s.dropWhile isspace).takeWhile (fun c => !isspace c) = w ∧
      (s.dropWhile isspace).dropWhile (fun c => !isspace c) = rest := by
  unfold scanWord
  simp only
  split
  · rename_i hw
    rw [hw]
    grind
  · rename_i c w₀ hw
    rw [hw]
    grind

/-- A word is found again when more text follows, and ends at the same place if it ended before the
    end of the text. -/
theorem scanWord_append {s w rest : List UInt8} (h : scanWord s = some (w, rest))
    (t : List UInt8) : ∃ w' rest', scanWord (s ++ t) = some (w', rest') ∧
      (rest ≠ [] → w' = w ∧ rest' = rest ++ t) := by
  obtain ⟨hw, htake, hdrop⟩ := scanWord_eq.mp h
  have hne : s.dropWhile isspace ≠ [] := by
    intro hnil
    rw [hnil] at htake
    exact hw htake.symm
  have hskip : (s ++ t).dropWhile isspace = s.dropWhile isspace ++ t := by
    rw [List.dropWhile_append, if_neg (by simpa using hne)]
  have htake' : ((s ++ t).dropWhile isspace).takeWhile (fun c => !isspace c) ≠ [] := by
    rw [hskip, List.takeWhile_append, htake]
    split
    · simp [hne]
    · exact hw
  refine ⟨_, _, scanWord_eq.mpr ⟨htake', rfl, rfl⟩, fun hrest => ?_⟩
  have hlen : w.length ≠ (s.dropWhile isspace).length := by
    intro hlen
    have hsplit := congrArg List.length
      (@List.takeWhile_append_dropWhile _ (fun c => !isspace c) (s.dropWhile isspace))
    rw [htake, hdrop, List.length_append] at hsplit
    exact hrest (List.length_eq_zero_iff.mp (by omega))
  rw [hskip, List.takeWhile_append, List.dropWhile_append, htake, hdrop, if_neg hlen,
    if_neg (by simpa using hrest)]
  exact ⟨rfl, rfl⟩

theorem scanWords_nil : ∀ n, scanWords n [] = []
  | 0 => rfl
  | _ + 1 => rfl

/-- The words of a text are those of a longer text, but for the last one. -/
theorem scanWords_append (t : List UInt8) : ∀ {n : ℕ} {s : List UInt8},
    (scanWords (n + 1) s).length = n + 1 →
    ∃ w, scanWords (n + 1) (s ++ t) = (scanWords (n + 1) s).dropLast ++ [w]
  | n, s, h => by
      rw [scanWords] at h
      cases hw : scanWord s with
      | none =>
        rw [hw] at h
        cases h
      | some found =>
        obtain ⟨w, rest⟩ := found
        obtain ⟨w', rest', hw', hsame⟩ := scanWord_append hw t
        rw [hw] at h
        rw [scanWords, scanWords, hw, hw']
        simp only [List.length_cons, Nat.add_right_cancel_iff] at h ⊢
        cases n with
        | zero => exact ⟨w', rfl⟩
        | succ n =>
          have hrest : rest ≠ [] := by
            rintro rfl
            rw [scanWords_nil] at h
            cases h
          obtain ⟨rfl, rfl⟩ := hsame hrest
          obtain ⟨v, hv⟩ := scanWords_append t h
          refine ⟨v, ?_⟩
          rw [hv, List.dropLast_cons_of_ne_nil (List.ne_nil_of_length_eq_add_one h)]
          rfl

/-! ### What conversions take -/

section Conversions
variable {w s : List UInt8} {c : UInt8}

/-- White-space or the end of the text. -/
def Ends (s : List UInt8) : Prop := ∀ c ∈ s.head?, isspace c = true

theorem scanWord_word (hw : w ≠ []) (hword : ∀ c ∈ w, isspace c = false) (hs : Ends s) :
    scanWord (w ++ s) = some (w, s) := by
  obtain ⟨c, w, rfl⟩ := List.exists_cons_of_ne_nil hw
  have hskip : (c :: w ++ s).dropWhile isspace = c :: w ++ s :=
    List.dropWhile_cons_of_neg (by simp [hword c (by simp)])
  have hall : ∀ d ∈ c :: w, (!isspace d) = true := fun d hd => by simp [hword d hd]
  refine scanWord_eq.mpr ⟨hw, ?_, ?_⟩
  · rw [hskip, List.takeWhile_append_of_pos hall]
    cases s with
    | nil => simp
    | cons d s => simp [hs d (by simp)]
  · rw [hskip, List.dropWhile_append_of_pos hall]
    cases s with
    | nil => rfl
    | cons d s => simp [hs d (by simp)]

theorem scanWord_skip (hc : isspace c = true) : scanWord (c :: s) = scanWord s := by
  rw [scanWord, scanWord, List.dropWhile_cons_of_pos hc]

/-- Three words with a space between them. -/
theorem scanWords_three {a b v : List UInt8} (ha : a ≠ [] ∧ ∀ c ∈ a, isspace c = false)
    (hb : b ≠ [] ∧ ∀ c ∈ b, isspace c = false) (hv : v ≠ [] ∧ ∀ c ∈ v, isspace c = false)
    (hs : Ends s) : scanWords 3 (a ++ 32 :: (b ++ 32 :: (v ++ s))) = [a, b, v] := by
  have hspace : ∀ t : List UInt8, Ends (32 :: t) := fun t c hc => by
    obtain rfl := Option.some.inj hc
    rfl
  have hskip : ∀ t : List UInt8, scanWord (32 :: t) = scanWord t := fun t => scanWord_skip rfl
  simp only [scanWords, scanWord_word ha.1 ha.2 (hspace _), hskip,
    scanWord_word hb.1 hb.2 (hspace _), scanWord_word hv.1 hv.2 hs]

theorem scanUntil_eq (hw : w ≠ []) (hno : c ∉ w) (hs : ∀ d ∈ s.head?, d = c) :
    scanUntil c (w ++ s) = some (w, s) := by
  have htake : (w ++ s).takeWhile (· ≠ c) = w := by
    rw [List.takeWhile_append_of_pos (ne_of_not_mem hno)]
    cases s with
    | nil => simp
    | cons d s => simp [hs d (by simp)]
  have hdrop : (w ++ s).dropWhile (· ≠ c) = s := by
    rw [List.dropWhile_append_of_pos (ne_of_not_mem hno)]
    cases s with
    | nil => rfl
    | cons d s => simp [hs d (by simp)]
  obtain ⟨d, w, rfl⟩ := List.exists_cons_of_ne_nil hw
  rw [scanUntil, htake, hdrop]

theorem scanLit_append (pat s : List UInt8) : scanLit pat (pat ++ s) = some s := by
  rw [scanLit, if_pos (List.isPrefixOf_iff_prefix.mpr (List.prefix_append pat s)), List.drop_left]

end Conversions

/-! ### Decimal numbers -/

/-- The number that a string of digits writes. -/
def digitsValue (t : List UInt8) : ℤ := t.foldl (fun n d => 10 * n + ((d.toNat : ℤ) - 48)) 0

/-- Digits and nothing else, of value `n`. -/
def Decimal (t : List UInt8) (n : ℤ) : Prop :=
  t ≠ [] ∧ (∀ c ∈ t, isdigit c = true) ∧ digitsValue t = n

theorem isdigit_bounds {c : UInt8} (h : isdigit c = true) : 48 ≤ c.toNat ∧ c.toNat ≤ 57 := by
  simpa [isdigit, UInt8.le_iff_toNat_le] using h

theorem isspace_of_isdigit {c : UInt8} (h : isdigit c = true) : isspace c = false := by
  obtain ⟨hlow, -⟩ := isdigit_bounds h
  simp only [isspace, Bool.or_eq_false_iff, decide_eq_false_iff_not, Bool.and_eq_false_iff,
    UInt8.le_iff_toNat_le, ← UInt8.toNat_inj]
  refine ⟨?_, Or.inr ?_⟩
  · change ¬ c.toNat = 32
    omega
  · change ¬ c.toNat ≤ 13
    omega

theorem digits_foldl_nonneg {t : List UInt8} : ∀ {n : ℤ}, 0 ≤ n → (∀ c ∈ t, isdigit c = true) →
    0 ≤ t.foldl (fun (n : ℤ) d => 10 * n + ((d.toNat : ℤ) - 48)) n := by
  induction t with
  | nil => intro n hn _; exact hn
  | cons d t ih =>
    intro n hn hdigits
    obtain ⟨hd, -⟩ := isdigit_bounds (hdigits d (by simp))
    have hnext : 0 ≤ 10 * n + ((d.toNat : ℤ) - 48) := by omega
    exact ih hnext fun c hc => hdigits c (List.mem_cons_of_mem d hc)

/-- `%d` reads a decimal number that an `int` can hold as it is. -/
theorem scanInt_decimal {t : List UInt8} {n : ℤ} (h : Decimal t n) (hn : n < 2 ^ 31) :
    scanInt t = .value n := by
  obtain ⟨hne, hdigits, hvalue⟩ := h
  have hnonneg : 0 ≤ n := hvalue ▸ digits_foldl_nonneg (le_refl _) hdigits
  obtain ⟨c, cs, rfl⟩ := List.exists_cons_of_ne_nil hne
  obtain ⟨hlow, hhigh⟩ := isdigit_bounds (hdigits c (by simp))
  have hspace : isspace c = false := isspace_of_isdigit (hdigits c (by simp))
  have hsign : ¬ c = 45 ∧ ¬ c = 43 := by
    constructor
    · rintro rfl
      exact absurd hlow (by decide)
    · rintro rfl
      exact absurd hlow (by decide)
  have hall : (c :: cs).takeWhile isdigit = c :: cs := List.takeWhile_eq_self_iff.mpr hdigits
  rw [digitsValue] at hvalue
  rw [scanInt, List.dropWhile_cons_of_neg (by simp [hspace])]
  simp only [hsign.1, hsign.2, or_self, if_false, hall, hvalue]
  rw [min_eq_right (by omega), max_eq_right (by omega), Int.bmod_eq_of_le (by omega) (by omega)]

end Schemes
