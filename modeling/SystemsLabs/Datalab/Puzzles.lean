import Mathlib.Data.Nat.Find
import SystemsLabs.Datalab.Division
import SystemsLabs.Schemes.Heap

/-! @lab datalab | file:bits.c, tests.c | structure:puzzles on single bits and signs | scheme:word, heap |
    main result:puzzles_exact

    The shorter puzzles against their references. Two references are loops: one goes over all bit
    positions, one shifts a mask until it meets a bit, and ends only because 0 is treated before. The
    puzzles know no loop: `-x` has the bits of `x` up to its lowest one and the complement above. The
    comparison subtracts only numbers of the same sign, where nothing overflows. -/

namespace Labs.Datalab
open Schemes Schemes.Word

def bitMatch (x y : BitVec 64) : BitVec 64 :=
  let nand := ~~~(x &&& y)
  let first := ~~~(x &&& nand)
  let second := ~~~(y &&& nand)
  first &&& second

def test_bitMatch (x y : BitVec 64) : BitVec 64 :=
  (List.range 64).foldl (fun result i =>
    let mask := 1#64 <<< i
    let bit := if x &&& mask = y &&& mask then 1#64 else 0
    result ||| (bit <<< i)) 0

def copyLSB (x : BitVec 64) : BitVec 64 := (x <<< 63).sshiftRight 63

def test_copyLSB (x : BitVec 64) : BitVec 64 := if x &&& 0x1 ≠ 0 then -1 else 0

def distinctNegation (x : BitVec 64) : BitVec 64 := lnot (lnot (x ^^^ (~~~x + 0x1)))

def test_distinctNegation (x : BitVec 64) : BitVec 64 := if x ≠ -x then 1 else 0

def leastBitPos (x : BitVec 64) : BitVec 64 := x &&& (~~~x + 0x1)

/-- `while (!(mask & x))`. -/
def maskLoop (x : BitVec 64) : ℕ → BitVec 64 → Except Stop (BitVec 64)
  | 0, _ => .error .fuel
  | fuel + 1, mask => if lnot (mask &&& x) ≠ 0 then maskLoop x fuel (mask <<< 1) else .ok mask

def test_leastBitPos (fuel : ℕ) (x : BitVec 64) : Except Stop (BitVec 64) :=
  if x = 0 then .ok 0 else maskLoop x fuel 1

def conditional (x y z : BitVec 64) : BitVec 64 :=
  let truth := (lnot (lnot x) <<< 63).sshiftRight 63
  (truth &&& y) ||| (~~~truth &&& z)

def test_conditional (x y z : BitVec 64) : BitVec 64 := if x ≠ 0 then y else z

def isLessOrEqual (x y : BitVec 64) : BitVec 64 :=
  let diff := lnot ((y + (~~~x + 1)).sshiftRight 63)
  let sign := lnot (lnot (x.sshiftRight 63)) ^^^ lnot (lnot (y.sshiftRight 63))
  (sign &&& x.sshiftRight 63) ||| (lnot sign &&& diff)

def test_isLessOrEqual (x y : BitVec 64) : BitVec 64 := if x.toInt ≤ y.toInt then 1 else 0

variable {x y z : BitVec 64} {i k n : ℕ}

/-! ### Bits -/

theorem and_mask (x : BitVec 64) (i : ℕ) :
    x &&& 1#64 <<< i = if x.getLsbD i then 1#64 <<< i else 0 := by
  rw [← BitVec.twoPow_eq, BitVec.and_twoPow]
  rfl

theorem getLsbD_mask (hi : i < 64) (k : ℕ) : (1#64 <<< i).getLsbD k = decide (i = k) := by
  rw [← BitVec.twoPow_eq, BitVec.getLsbD_twoPow]
  simp [hi]

theorem mask_ne_zero (hi : i < 64) : 1#64 <<< i ≠ 0 := by
  intro h
  have hbit := getLsbD_mask hi i
  rw [h] at hbit
  simp at hbit

theorem same_bit_iff (x y : BitVec 64) (hi : i < 64) :
    x &&& 1#64 <<< i = y &&& 1#64 <<< i ↔ x.getLsbD i = y.getLsbD i := by
  have hne := mask_ne_zero hi
  rw [and_mask, and_mask]
  cases x.getLsbD i with
  | false =>
    cases y.getLsbD i with
    | false => simp
    | true => exact ⟨fun heq => absurd heq.symm hne, fun heq => by cases heq⟩
  | true =>
    cases y.getLsbD i with
    | false => exact ⟨fun heq => absurd heq hne, fun heq => by cases heq⟩
    | true => simp

/-- A round of the reference, as bits. -/
theorem getLsbD_round (x y result : BitVec 64) (hn : n < 64) :
    (result ||| ((if x &&& 1#64 <<< n = y &&& 1#64 <<< n then 1#64 else 0) <<< n)).getLsbD k =
      (result.getLsbD k || decide (n = k ∧ x.getLsbD n = y.getLsbD n)) := by
  rw [BitVec.getLsbD_or]
  by_cases h : x.getLsbD n = y.getLsbD n
  · rw [if_pos ((same_bit_iff x y hn).mpr h), getLsbD_mask hn]
    simp [h]
  · rw [if_neg (mt (same_bit_iff x y hn).mp h)]
    simp [h]

theorem test_bitMatch_bits (x y : BitVec 64) : ∀ n ≤ 64,
    ((List.range n).foldl (fun result i => result |||
      ((if x &&& 1#64 <<< i = y &&& 1#64 <<< i then 1#64 else 0) <<< i)) 0).getLsbD k =
      decide (k < n ∧ x.getLsbD k = y.getLsbD k)
  | 0, _ => by simp
  | n + 1, hn => by
      rw [List.range_succ, List.foldl_append, List.foldl_cons, List.foldl_nil,
        getLsbD_round x y _ (Nat.lt_of_succ_le hn), test_bitMatch_bits x y n (Nat.le_of_succ_le hn),
        ← Bool.decide_or, decide_eq_decide]
      constructor
      · rintro (⟨hlt, heq⟩ | ⟨rfl, heq⟩)
        · exact ⟨Nat.lt_succ_of_lt hlt, heq⟩
        · exact ⟨Nat.lt_succ_self n, heq⟩
      · rintro ⟨hlt, heq⟩
        rcases Nat.lt_succ_iff_lt_or_eq.mp hlt with hlt | rfl
        · exact Or.inl ⟨hlt, heq⟩
        · exact Or.inr ⟨rfl, heq⟩

theorem bitMatch_test (x y : BitVec 64) : bitMatch x y = test_bitMatch x y := by
  apply BitVec.eq_of_getLsbD_eq
  intro i hi
  rw [test_bitMatch, test_bitMatch_bits x y 64 (Nat.le_refl 64)]
  simp only [bitMatch, BitVec.getLsbD_and, BitVec.getLsbD_not, hi]
  cases x.getLsbD i <;> cases y.getLsbD i <;> rfl

/-! ### The lowest bit -/

/-- Bit `k` is the lowest one. -/
def Lowest (x : BitVec 64) (k : ℕ) : Prop := x.getLsbD k = true ∧ ∀ j < k, x.getLsbD j = false

theorem exists_lowest (hx : x ≠ 0) : ∃ k < 64, Lowest x k := by
  have hsome : ∃ k, x.getLsbD k = true := by
    by_contra hnone
    exact hx (BitVec.eq_of_getLsbD_eq fun i _ => by simpa using fun h => hnone ⟨i, h⟩)
  refine ⟨Nat.find hsome, ?_, Nat.find_spec hsome, fun j hj => ?_⟩
  · exact BitVec.lt_of_getLsbD (Nat.find_spec hsome)
  · simpa using Nat.find_min hsome hj

theorem leastBitPos_lowest (h : Lowest x k) (hk : k < 64) : leastBitPos x = 1#64 <<< k := by
  apply BitVec.eq_of_getLsbD_eq
  intro i hi
  change (x &&& (~~~x + 1#64)).getLsbD i = _
  rw [← BitVec.neg_eq_not_add, BitVec.getLsbD_and, BitVec.getLsbD_neg, getLsbD_mask hk]
  rcases Nat.lt_trichotomy i k with hlt | rfl | hgt
  · simp [h.2 i hlt, Nat.ne_of_gt hlt]
  · have hnone : ¬ ∃ j < i, x.getLsbD j = true := by
      rintro ⟨j, hj, hbit⟩
      rw [h.2 j hj] at hbit
      cases hbit
    simp [h.1, hi, hnone]
  · have hbelow : ∃ j < i, x.getLsbD j = true := ⟨k, hgt, h.1⟩
    simp [hi, hbelow, Nat.ne_of_lt hgt]

/-- The mask moves up to the lowest bit. -/
theorem maskLoop_lowest (h : Lowest x k) (hk : k < 64) : ∀ {d i fuel : ℕ}, i + d = k → d < fuel →
    maskLoop x fuel (1#64 <<< i) = .ok (1#64 <<< k)
  | _, _, 0, _, hfuel => absurd hfuel (Nat.not_lt_zero _)
  | 0, i, fuel + 1, hi, _ => by
      obtain rfl : i = k := hi
      have hbit : lnot (1#64 <<< i &&& x) = 0 := by
        rw [BitVec.and_comm, and_mask, if_pos h.1, lnot, if_neg (mask_ne_zero hk)]
      rw [maskLoop, hbit, if_neg (fun hne => hne rfl)]
  | d + 1, i, fuel + 1, hi, hfuel => by
      have hbit : lnot (1#64 <<< i &&& x) ≠ 0 := by
        rw [BitVec.and_comm, and_mask, h.2 i (by omega), if_neg Bool.false_ne_true]
        decide
      rw [maskLoop, if_pos hbit, ← BitVec.shiftLeft_add]
      exact maskLoop_lowest h hk (by omega) (Nat.lt_of_succ_lt_succ hfuel)

theorem test_leastBitPos_converges (x : BitVec 64) :
    Converges (fun fuel => test_leastBitPos fuel x) (leastBitPos x) := by
  rcases eq_or_ne x 0 with rfl | hx
  · exact Converges.const
  · obtain ⟨k, hk, hlow⟩ := exists_lowest hx
    refine ⟨k + 1, fun fuel hfuel => ?_⟩
    change (if x = 0 then _ else maskLoop x fuel (1#64 <<< 0)) = _
    rw [if_neg hx, maskLoop_lowest hlow hk (Nat.zero_add k) (Nat.lt_of_succ_le hfuel),
      leastBitPos_lowest hlow hk]

/-! ### Signs -/

theorem sar_truth (x : BitVec 64) :
    (lnot (lnot x) <<< 63).sshiftRight 63 = if x = 0 then 0 else -1 := by
  rw [lnot_lnot]
  split
  · decide
  · decide

theorem conditional_test (x y z : BitVec 64) : conditional x y z = test_conditional x y z := by
  rw [conditional, sar_truth, test_conditional]
  rcases eq_or_ne x 0 with rfl | hx
  · rw [if_pos rfl, if_neg (fun hne => hne rfl)]
    change (0#64 &&& y) ||| (BitVec.allOnes 64 &&& z) = z
    rw [BitVec.allOnes_and, BitVec.zero_and, BitVec.zero_or]
  · rw [if_neg hx, if_pos hx]
    change (BitVec.allOnes 64 &&& y) ||| (0#64 &&& z) = y
    rw [BitVec.allOnes_and, BitVec.zero_and, BitVec.or_zero]

theorem getLsbD_copyLSB (x : BitVec 64) (hi : i < 64) : (copyLSB x).getLsbD i = x.getLsbD 0 := by
  have htop : (x <<< 63).getLsbD 63 = x.getLsbD 0 := by
    rw [BitVec.getLsbD_shiftLeft]
    rfl
  have hin : ¬ 64 ≤ i := Nat.not_le.mpr hi
  rw [copyLSB, BitVec.getLsbD_sshiftRight]
  by_cases h0 : 63 + i < 64
  · obtain rfl : i = 0 := by omega
    simp
  · rw [if_neg h0, BitVec.msb_eq_getLsbD_last, htop]
    simp [hin]

theorem copyLSB_test (x : BitVec 64) : copyLSB x = test_copyLSB x := by
  have hlow := and_mask x 0
  have hone : 1#64 <<< 0 = 0x1 := rfl
  rw [hone] at hlow
  apply BitVec.eq_of_getLsbD_eq
  intro i hi
  rw [getLsbD_copyLSB x hi, test_copyLSB, hlow]
  cases x.getLsbD 0 with
  | false => simp
  | true =>
    rw [if_pos rfl, if_pos (by decide)]
    change true = (BitVec.allOnes 64).getLsbD i
    rw [BitVec.getLsbD_allOnes, decide_eq_true hi]

theorem distinctNegation_test (x : BitVec 64) : distinctNegation x = test_distinctNegation x := by
  have hneg : x ^^^ (~~~x + 0x1) = 0 ↔ x = -x := by
    rw [BitVec.neg_eq_not_add]
    exact BitVec.xor_eq_zero_iff
  rw [distinctNegation, lnot_lnot, test_distinctNegation]
  by_cases h : x = -x
  · rw [if_pos (hneg.mpr h), if_neg (fun hne => hne h)]
  · rw [if_neg (mt hneg.mp h), if_pos h]

/-- Numbers of the same sign do not overflow when subtracted. -/
theorem toInt_diff (h : x.toInt < 0 ↔ y.toInt < 0) :
    (y + (~~~x + 1)).toInt = y.toInt - x.toInt := by
  have hx := x.toInt_lt
  have hx' := x.le_toInt
  have hy := y.toInt_lt
  have hy' := y.le_toInt
  change (y + (~~~x + 1#64)).toInt = _
  rw [← BitVec.neg_eq_not_add, ← BitVec.sub_eq_add_neg, BitVec.toInt_sub]
  apply Int.bmod_eq_of_le
  · change -9223372036854775808 ≤ _
    omega
  · change _ < (9223372036854775808 : ℤ)
    omega

theorem sign_bit (x : BitVec 64) :
    lnot (lnot (x.sshiftRight 63)) = if x.toInt < 0 then 1 else 0 := by
  rw [lnot_lnot, sar_63]
  split
  · rfl
  · rfl

theorem diff_sign (h : x.toInt < 0 ↔ y.toInt < 0) :
    lnot ((y + (~~~x + 1)).sshiftRight 63) = if x.toInt ≤ y.toInt then 1 else 0 := by
  rw [sar_63, toInt_diff h]
  by_cases hle : x.toInt ≤ y.toInt
  · rw [if_neg (by omega), if_pos hle]
    rfl
  · rw [if_pos (by omega), if_neg hle]
    rfl

theorem isLessOrEqual_test (x y : BitVec 64) : isLessOrEqual x y = test_isLessOrEqual x y := by
  rw [isLessOrEqual, sign_bit, sign_bit, sar_63 x, test_isLessOrEqual]
  by_cases hx : x.toInt < 0
  · by_cases hy : y.toInt < 0
    · rw [diff_sign ⟨fun _ => hy, fun _ => hx⟩, if_pos hx, if_pos hx, if_pos hy]
      split <;> rfl
    · rw [if_pos hx, if_pos hx, if_neg hy, if_pos (by omega)]
      change 1#64 ||| (0#64 &&& _) = 1#64
      rw [BitVec.zero_and, BitVec.or_zero]
  · by_cases hy : y.toInt < 0
    · rw [if_neg hx, if_neg hx, if_pos hy, if_neg (by omega)]
      change 0#64 ||| (0#64 &&& _) = 0#64
      rw [BitVec.zero_and, BitVec.or_zero]
    · rw [diff_sign ⟨fun h => absurd h hx, fun h => absurd h hy⟩, if_neg hx, if_neg hx, if_neg hy]
      split <;> rfl

theorem puzzles_exact (x y z : BitVec 64) :
    bitMatch x y = test_bitMatch x y ∧ copyLSB x = test_copyLSB x ∧
    distinctNegation x = test_distinctNegation x ∧
    Converges (fun fuel => test_leastBitPos fuel x) (leastBitPos x) ∧
    conditional x y z = test_conditional x y z ∧ isLessOrEqual x y = test_isLessOrEqual x y :=
  ⟨bitMatch_test x y, copyLSB_test x, distinctNegation_test x, test_leastBitPos_converges x,
    conditional_test x y z, isLessOrEqual_test x y⟩

end Labs.Datalab
