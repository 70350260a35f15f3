import SystemsLabs.Datalab.Bits
import SystemsLabs.Schemes.Word

/-! @lab datalab | file:bits.c, tests.c | structure:bit reversal by swaps | scheme:word |
    main result:isPalindrome_mirror

    A round with fields of `w` bits moves bit `i` to its place in the neighbouring field: the sign that
    the right shift brings in is masked away. The rounds from `w = 32` down to 1 take bit `i` from
    `mirror 6 i`, and that is bit `63 - i`. The word is a palindrome when this changes nothing, which the
    loop over the 32 pairs of bits sees as well. -/

namespace Labs.Datalab
open Schemes.Word

/-- The place of bit `i` in the neighbouring field of `w` bits. -/
def partner (w i : ℕ) : ℕ := if i / w % 2 = 0 then i + w else i - w

/-- Where the rounds of width `2^(k-1)`, …, 1 take bit `i` from. -/
def mirror : ℕ → ℕ → ℕ
  | 0, i => i
  | k + 1, i => partner (2 ^ k) (mirror k i)

/-- The last `k` rounds. -/
def swapRounds : ℕ → BitVec 64 → BitVec 64
  | 0, rev => rev
  | k + 1, rev => swapRounds k (swapPairs (maskAt k) (2 ^ k) rev)

section Palindrome
variable {x rev mask : BitVec 64} {w n k i : ℕ}

theorem partner_of_even (h : i / w % 2 = 0) : partner w i = i + w := if_pos h

theorem partner_of_odd (h : i / w % 2 = 1) : partner w i = i - w := if_neg (by omega)

/-- The neighbour on the left is inside the word. -/
theorem add_lt_of_even (hw : 0 < w) (h : i / w % 2 = 0) (hi : i < w * (2 * n)) : i + w < w * (2 * n) := by
  have hfield : i / w < 2 * n := Nat.div_lt_of_lt_mul hi
  have hnext : i < w * (i / w + 1) := Nat.lt_mul_div_succ i hw
  calc i + w < w * (i / w + 1) + w := Nat.add_lt_add_right hnext w
    _ = w * (i / w + 2) := rfl
    _ ≤ w * (2 * n) := Nat.mul_le_mul_left w (by omega)

/-- In the field on the right the parity changes. -/
theorem sub_div (w i : ℕ) : (i - w) / w = i / w - 1 := by
  have hsub := Nat.sub_mul_div i w 1
  rwa [Nat.mul_one] at hsub

theorem le_of_odd (h : i / w % 2 = 1) : w ≤ i := by
  by_contra hlt
  rw [Nat.div_eq_of_lt (Nat.lt_of_not_le hlt)] at h
  cases h

theorem partner_lt (hw : 0 < w) (hi : i < w * (2 * n)) : partner w i < w * (2 * n) := by
  rcases Nat.mod_two_eq_zero_or_one (i / w) with heven | hodd
  · rw [partner_of_even heven]
    exact add_lt_of_even hw heven hi
  · rw [partner_of_odd hodd]
    exact Nat.lt_of_le_of_lt (Nat.sub_le i w) hi

/-- A round, bit by bit. -/
theorem getLsbD_swapPairs (hw : 0 < w) (hn : w * (2 * n) = 64)
    (hmask : ∀ i < 64, mask.getLsbD i = decide (i / w % 2 = 0)) (hi : i < 64) :
    (swapPairs mask w rev).getLsbD i = rev.getLsbD (partner w i) := by
  simp only [swapPairs, BitVec.getLsbD_or, BitVec.getLsbD_shiftLeft, BitVec.getLsbD_and,
    BitVec.getLsbD_sshiftRight, hmask i hi]
  rcases Nat.mod_two_eq_zero_or_one (i / w) with heven | hodd
  · have hlt : i + w < 64 := hn ▸ add_lt_of_even hw heven (hn.symm ▸ hi)
    have hright : w ≤ i → mask.getLsbD (i - w) = false := by
      intro hle
      have hfield := sub_div w i
      have hpos : 1 ≤ i / w := (Nat.one_le_div_iff hw).mpr hle
      rw [hmask _ (by omega), hfield, decide_eq_false]
      omega
    rw [partner_of_even heven, Nat.add_comm i w] at *
    by_cases hle : w ≤ i
    · simp [heven, hlt, hright hle, hmask i hi, Nat.not_le.mpr hi]
    · simp [heven, hlt, Nat.lt_of_not_le hle, hmask i hi, Nat.not_le.mpr hi]
  · have hle := le_of_odd hodd
    have hright : mask.getLsbD (i - w) = true := by
      rw [hmask _ (by omega), sub_div w i, decide_eq_true]
      omega
    rw [partner_of_odd hodd]
    simp [hodd, hi, hright, Nat.not_lt.mpr hle]

theorem getLsbD_maskAt : ∀ k < 6, ∀ i < 64, (maskAt k).getLsbD i = decide (i / 2 ^ k % 2 = 0) := by
  decide

theorem two_pow_mul_half (hk : k < 6) : 2 ^ k * (2 * 2 ^ (5 - k)) = 64 := by
  rw [← Nat.pow_succ', ← Nat.pow_add]
  have hexp : k + (5 - k).succ = 6 := by omega
  exact congrArg (fun e => 2 ^ e) hexp

theorem mirror_lt (hi : i < 64) : ∀ k ≤ 6, mirror k i < 64 := by
  intro k
  induction k with
  | zero => exact fun _ => hi
  | succ k ih =>
    intro hk
    have hhalf := two_pow_mul_half hk
    rw [mirror, ← hhalf]
    exact partner_lt (Nat.two_pow_pos k) (hhalf.symm ▸ ih (Nat.le_of_succ_le hk))

/-- Run lemma: the last `k` rounds mirror the bits in blocks of `2^k`. -/
theorem getLsbD_swapRounds (hi : i < 64) : ∀ k ≤ 6, ∀ rev : BitVec 64,
    (swapRounds k rev).getLsbD i = rev.getLsbD (mirror k i) := by
  intro k
  induction k with
  | zero => exact fun _ _ => rfl
  | succ k ih =>
    intro hk rev
    rw [swapRounds, ih (Nat.le_of_succ_le hk), mirror]
    exact getLsbD_swapPairs (Nat.two_pow_pos k) (two_pow_mul_half hk) (getLsbD_maskAt k hk)
      (mirror_lt hi k (Nat.le_of_succ_le hk))

theorem mirror_six : ∀ i < 64, mirror 6 i = 63 - i := by decide

theorem reversed_eq (x : BitVec 64) : reversed x = swapRounds 6 x := rfl

theorem getLsbD_reversed (hi : i < 64) : (reversed x).getLsbD i = x.getLsbD (63 - i) := by
  rw [reversed_eq, getLsbD_swapRounds hi 6 (Nat.le_refl 6), mirror_six i hi]

/-! ### The two tests -/

theorem lnot_eq_one (y : BitVec 64) : lnot y = 1 ↔ y = 0 := by
  rw [lnot]
  split
  · rename_i h
    exact ⟨fun _ => h, fun _ => rfl⟩
  · rename_i h
    exact ⟨fun heq => absurd heq (by decide), fun h0 => absurd h0 h⟩

theorem lnot_cases (y : BitVec 64) : lnot y = 0 ∨ lnot y = 1 := by
  rw [lnot]
  split
  · exact Or.inr rfl
  · exact Or.inl rfl

theorem isPalindrome_iff (x : BitVec 64) :
    isPalindrome x = 1 ↔ ∀ i < 64, x.getLsbD i = x.getLsbD (63 - i) := by
  rw [isPalindrome, lnot_eq_one, BitVec.ofNat_eq_ofNat, BitVec.xor_eq_zero_iff]
  constructor
  · intro heq i hi
    rw [← getLsbD_reversed hi, heq]
  · intro hall
    apply BitVec.eq_of_getLsbD_eq
    intro i hi
    rw [getLsbD_reversed hi, hall i hi]

/-- A round of the reference compares bit `32 + i` with bit `31 - i`. -/
theorem test_round (x : BitVec 64) (hi : i < 32) :
    ((x.sshiftRight 32 &&& 0xFFFFFFFF).sshiftRight i &&& 0x1 =
      (x &&& 0xFFFFFFFF).sshiftRight (31 - i) &&& 0x1) ↔
    x.getLsbD (32 + i) = x.getLsbD (31 - i) := by
  have hmask : ∀ j < 32, (0xFFFFFFFF : BitVec 64).getLsbD j = true := by decide
  have hhigh : (x.sshiftRight 32 &&& 0xFFFFFFFF).getLsbD i = x.getLsbD (32 + i) := by
    rw [BitVec.getLsbD_and, hmask i hi, BitVec.getLsbD_sshiftRight, if_pos (by omega)]
    have hin : ¬ 64 ≤ i := by omega
    simp [hin]
  have hlow : (x &&& 0xFFFFFFFF).getLsbD (31 - i) = x.getLsbD (31 - i) := by
    rw [BitVec.getLsbD_and, hmask _ (by omega), Bool.and_true]
  have hbits : ∀ b c : Bool, BitVec.ofNat 64 b.toNat = BitVec.ofNat 64 c.toNat ↔ b = c := by decide
  change (_ &&& 1#64 = _ &&& 1#64) ↔ _
  rw [sar_and_one (by omega), sar_and_one (by omega), hhigh, hlow]
  exact hbits _ _

/-- The loop of the reference over the first `n` pairs. -/
theorem test_loop (p : ℕ → Prop) [DecidablePred p] (n : ℕ) :
    (List.range n).foldl (fun (result : BitVec 64) i => if result ≠ 0 ∧ p i then 1 else 0) 1 = 0 ∧
        (∃ i < n, ¬ p i) ∨
      (List.range n).foldl (fun (result : BitVec 64) i => if result ≠ 0 ∧ p i then 1 else 0) 1 = 1 ∧
        ∀ i < n, p i := by
  induction n with
  | zero => exact Or.inr ⟨rfl, fun i hi => absurd hi (Nat.not_lt_zero i)⟩
  | succ n ih =>
    simp only [List.range_succ, List.foldl_append, List.foldl_cons, List.foldl_nil]
    rcases ih with ⟨hzero, i, hi, hnot⟩ | ⟨hone, hall⟩
    · left
      rw [hzero, if_neg fun hboth => hboth.1 rfl]
      exact ⟨rfl, i, Nat.lt_succ_of_lt hi, hnot⟩
    · rw [hone]
      by_cases hn : p n
      · right
        rw [if_pos ⟨by decide, hn⟩]
        refine ⟨rfl, fun i hi => ?_⟩
        rcases Nat.lt_succ_iff_lt_or_eq.mp hi with hlt | rfl
        · exact hall i hlt
        · exact hn
      · left
        rw [if_neg fun hboth => hn hboth.2]
        exact ⟨rfl, n, Nat.lt_succ_self n, hn⟩

theorem test_isPalindrome_cases (x : BitVec 64) :
    test_isPalindrome x = 0 ∧ (∃ i < 32, ¬ x.getLsbD (32 + i) = x.getLsbD (31 - i)) ∨
      test_isPalindrome x = 1 ∧ ∀ i < 32, x.getLsbD (32 + i) = x.getLsbD (31 - i) := by
  rcases test_loop (fun i => (x.sshiftRight 32 &&& 0xFFFFFFFF).sshiftRight i &&& 0x1 =
    (x &&& 0xFFFFFFFF).sshiftRight (31 - i) &&& 0x1) 32 with ⟨hzero, i, hi, hnot⟩ | ⟨hone, hall⟩
  · exact Or.inl ⟨hzero, i, hi, fun heq => hnot ((test_round x hi).mpr heq)⟩
  · exact Or.inr ⟨hone, fun i hi => (test_round x hi).mp (hall i hi)⟩

/-- The 32 pairs are all pairs. -/
theorem pairs_iff (x : BitVec 64) : (∀ i < 32, x.getLsbD (32 + i) = x.getLsbD (31 - i)) ↔
    ∀ i < 64, x.getLsbD i = x.getLsbD (63 - i) := by
  constructor
  · intro hpairs i hi
    rcases Nat.lt_or_ge i 32 with hlow | hhigh
    · have hpair := hpairs (31 - i) (by omega)
      have h₁ : 32 + (31 - i) = 63 - i := by omega
      have h₂ : 31 - (31 - i) = i := by omega
      rw [h₁, h₂] at hpair
      exact hpair.symm
    · have hpair := hpairs (i - 32) (by omega)
      have h₁ : 32 + (i - 32) = i := by omega
      have h₂ : 31 - (i - 32) = 63 - i := by omega
      rwa [h₁, h₂] at hpair
  · intro hall i hi
    have hbit := hall (32 + i) (by omega)
    have h₁ : 63 - (32 + i) = 31 - i := by omega
    rwa [h₁] at hbit

/-- The rounds reverse the word, so that 1 is the answer for the palindromes and 0 for the others, as
    the loop over the pairs of bits has it. -/
theorem isPalindrome_mirror (x : BitVec 64) :
    (∀ i < 64, (reversed x).getLsbD i = x.getLsbD (63 - i)) ∧
      (isPalindrome x = 1 ↔ ∀ i < 64, x.getLsbD i = x.getLsbD (63 - i)) ∧
      isPalindrome x = test_isPalindrome x := by
  refine ⟨fun i hi => getLsbD_reversed hi, isPalindrome_iff x, ?_⟩
  rcases test_isPalindrome_cases x with ⟨hzero, i, hi, hnot⟩ | ⟨hone, hpairs⟩
  · rw [hzero]
    rcases lnot_cases (reversed x ^^^ x) with hno | hyes
    · exact hno
    · exact absurd ((pairs_iff x).mpr ((isPalindrome_iff x).mp hyes) i hi) hnot
  · rw [hone]
    exact (isPalindrome_iff x).mpr ((pairs_iff x).mp hpairs)

end Palindrome

end Labs.Datalab
