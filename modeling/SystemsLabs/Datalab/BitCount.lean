import SystemsLabs.Datalab.Bits
import SystemsLabs.Schemes.Fields
import SystemsLabs.Schemes.Word

/-! @lab datalab | file:bits.c, tests.c | structure:parallel sum of bits | scheme:fields |
    main result:bitCount_exact

    After `k` rounds the word has a field of `2^k` bits for each block of `2^k` bits of `x`, with the
    number of ones in the block. A block has at most `2^k` ones, which is less than `2^(2^k)`, so the
    sums stay in their fields; the last round leaves one field. -/

namespace Labs.Datalab
open Schemes Schemes.Word

/-- `new` after `k` rounds. -/
def sumsAfter (x : BitVec 64) : ℕ → BitVec 64
  | 0 => x
  | k + 1 => addPairs (maskAt k) (2 ^ k) (sumsAfter x k)

/-- The masks are derived from each other by shifts; this is what they are. -/
theorem maskAt_eq : ∀ k < 6, (maskAt k).toNat = evenMask (2 ^ k) (2 ^ (5 - k)) ∧
    (maskAt k).toNat < 2 ^ (64 - 2 ^ k) := by
  decide

section BitCount
variable {x new mask : BitVec 64} {w n k : ℕ} {c : ℕ → ℕ}

/-- A round on a word of fields, as long as the sums have room. -/
theorem addPairs_pack (hmask : mask.toNat = evenMask w n) (htop : mask.toNat < 2 ^ (64 - w))
    (hnew : new.toNat = pack w (2 * n) c) (hc : ∀ i < 2 * n, c i < 2 ^ w)
    (hsum : ∀ i < n, c (2 * i) + c (2 * i + 1) < 2 ^ (2 * w)) (hwidth : 2 * w * n ≤ 64) :
    (addPairs mask w new).toNat = pack (2 * w) n fun i => c (2 * i) + c (2 * i + 1) := by
  rw [addPairs, sar_and htop, BitVec.toNat_add, BitVec.toNat_and, BitVec.toNat_and,
    BitVec.toNat_ushiftRight, Nat.shiftRight_eq_div_pow, hmask, hnew, pack_addPairs hc]
  refine Nat.mod_eq_of_lt (Nat.lt_of_lt_of_le (pack_lt hsum) ?_)
  exact Nat.pow_le_pow_right (Nat.succ_pos 1) hwidth

/-- Every field is a count of ones. -/
def Counts (x : BitVec 64) (k : ℕ) (new : BitVec 64) : Prop :=
  new.toNat = pack (2 ^ k) (2 ^ (6 - k)) fun i => ones x.getLsbD (i * 2 ^ k) (2 ^ k)

theorem ones_lt (x : BitVec 64) (lo k : ℕ) : ones x.getLsbD lo (2 ^ k) < 2 ^ 2 ^ k :=
  Nat.lt_of_le_of_lt (ones_le _ _ _) Nat.lt_two_pow_self

theorem counts_start (x : BitVec 64) : Counts x 0 x := by
  have hone : ∀ i, ones x.getLsbD (i * 2 ^ 0) (2 ^ 0) = (x.toNat.testBit i).toNat := by
    intro i
    simp [ones, BitVec.getLsbD]
  have hlt : x.toNat < 2 ^ 2 ^ (6 - 0) := x.isLt
  simp only [Counts, hone]
  rw [pow_zero, pack_bits, Nat.mod_eq_of_lt hlt]

/-- Step lemma: a round doubles the blocks. -/
theorem Counts.round (h : Counts x k new) (hk : k < 6) :
    Counts x (k + 1) (addPairs (maskAt k) (2 ^ k) new) := by
  obtain ⟨hmask, htop⟩ := maskAt_eq k hk
  have hhalf : 2 ^ (6 - k) = 2 * 2 ^ (5 - k) := by
    rw [← pow_succ']
    congr 1
    omega
  have hwidth : 2 * 2 ^ k * 2 ^ (5 - k) = 64 := by
    rw [← pow_succ', ← pow_add]
    have hexp : k + 1 + (5 - k) = 6 := by omega
    rw [hexp]
    rfl
  have hpair : ∀ i, ones x.getLsbD (2 * i * 2 ^ k) (2 ^ k) +
      ones x.getLsbD ((2 * i + 1) * 2 ^ k) (2 ^ k) = ones x.getLsbD (i * 2 ^ (k + 1)) (2 ^ (k + 1)) := by
    intro i
    have hlo : i * (2 * 2 ^ k) = 2 * i * 2 ^ k := by ring
    have hhi : (2 * i + 1) * 2 ^ k = 2 * i * 2 ^ k + 2 ^ k := Nat.succ_mul (2 * i) (2 ^ k)
    rw [pow_succ', ones_double, hlo, hhi]
  rw [Counts, hhalf] at h
  have hround := addPairs_pack hmask htop h (fun i _ => ones_lt x _ k)
    (fun i _ => by
      rw [hpair, ← pow_succ']
      exact ones_lt x _ (k + 1)) (Nat.le_of_eq hwidth)
  simp only [hpair] at hround
  rw [Counts, hround, ← pow_succ', Nat.succ_sub_succ]

/-- Run lemma. -/
theorem counts_sumsAfter (x : BitVec 64) : ∀ k ≤ 6, Counts x k (sumsAfter x k) := by
  intro k
  induction k with
  | zero => exact fun _ => counts_start x
  | succ k ih =>
    intro hk
    exact (ih (Nat.le_of_succ_le hk)).round hk

theorem toNat_bitCount (x : BitVec 64) : (bitCount x).toNat = ones x.getLsbD 0 64 := by
  have hlast : (sumsAfter x 6).toNat = pack 64 1 _ := counts_sumsAfter x 6 (Nat.le_refl 6)
  change (sumsAfter x 6).toNat = _
  rw [hlast, pack, pack, Nat.mul_zero, Nat.add_zero, Nat.zero_mul]
  rfl

/-! ### The bit loop -/

theorem test_bitCount_loop (x : BitVec 64) : ∀ n ≤ 64,
    ((List.range n).foldl (fun result i => result + (x.sshiftRight i &&& 0x1)) (0 : BitVec 64)).toNat =
      ones x.getLsbD 0 n := by
  intro n
  induction n with
  | zero => exact fun _ => rfl
  | succ n ih =>
    intro hn
    have hle := ones_le x.getLsbD 0 n
    have hone := Bool.toNat_le (x.getLsbD n)
    have hbit : (x.sshiftRight n &&& 0x1).toNat = (x.getLsbD n).toNat := by
      change (x.sshiftRight n &&& 1#64).toNat = _
      rw [sar_and_one hn, BitVec.toNat_ofNat, Nat.mod_eq_of_lt (by omega)]
    rw [List.range_succ, List.foldl_append, List.foldl_cons, List.foldl_nil, BitVec.toNat_add,
      ih (Nat.le_of_succ_le hn), hbit, Nat.mod_eq_of_lt (by omega), ones, ones,
      Finset.sum_range_succ, Nat.zero_add]

/-- The library's population count. -/
theorem cpopNatRec_ones (x : BitVec 64) (n : ℕ) : x.cpopNatRec n 0 = ones x.getLsbD 0 n := by
  induction n with
  | zero => rfl
  | succ n ih =>
    rw [BitVec.cpopNatRec_succ, BitVec.cpopNatRec_eq, ih, ones, ones, Finset.sum_range_succ,
      Nat.zero_add, Nat.zero_add]

/-- The parallel sum is the number of ones, as the loop over the bits counts it, and after every
    round each field of the word holds the count of its block. -/
theorem bitCount_exact (x : BitVec 64) : bitCount x = x.cpop ∧ bitCount x = test_bitCount x ∧
    bitCount x = sumsAfter x 6 ∧ ∀ k ≤ 6,
      (sumsAfter x k).toNat = pack (2 ^ k) (2 ^ (6 - k))
        (fun i => ones x.getLsbD (i * 2 ^ k) (2 ^ k)) ∧
      ∀ i, ones x.getLsbD (i * 2 ^ k) (2 ^ k) < 2 ^ 2 ^ k := by
  have hval := toNat_bitCount x
  have hle := ones_le x.getLsbD 0 64
  refine ⟨?_, ?_, rfl, fun k hk => ⟨counts_sumsAfter x k hk, fun i => ones_lt x _ k⟩⟩
  · apply BitVec.eq_of_toNat_eq
    rw [hval, BitVec.cpop, BitVec.toNat_ofNat, cpopNatRec_ones, Nat.mod_eq_of_lt (by omega)]
  · apply BitVec.eq_of_toNat_eq
    rw [hval, test_bitCount, test_bitCount_loop x 64 (Nat.le_refl 64)]

end BitCount

end Labs.Datalab
