import SystemsLabs.Cachelab.TransSquare
import SystemsLabs.Schemes.Binary

/-! @lab cachelab | file:tracegen-ct.c, cachelab.h | structure:flat matrices | scheme:loop, binary |
    main result:validate_sound_iff

    `validate` compares `B` with the expected transpose, then `A` with its copy, and then looks for
    stores behind `B`. All three scans count `i` to `M` and `j` to `N`, which are the rows and columns
    of `B`; `A` has them the other way round. The elements of `A` that the second scan reaches are all
    of them when `A` is square, and when it has one column. -/

namespace Labs.Trans
open Schemes

/-! ### The model -/

/-- `double`: 52 fraction bits and 11 exponent bits. -/
def double : Format := ⟨52, 11, Nat.succ_pos 10⟩

/-- `x == y` on doubles. -/
def Same (x y : BitVec 64) : Prop :=
  double.decode x.toNat ≠ .nan ∧ double.decode x.toNat = double.decode y.toNat

instance (x y : BitVec 64) : Decidable (Same x y) := inferInstanceAs (Decidable (_ ∧ _))

/-- The elements of a `MAXN` by `MAXN` array in the order of their addresses. -/
abbrev Flat := ℕ → BitVec 64

/-- Why `validate` returns false; `fault` is an access outside the array. -/
inductive Failure where
  | fault
  | mismatch (fn : ℤ) (expected got : BitVec 64) (i j : ℕ)
  | corrupted (fn : ℤ) (i j : ℕ)
  | outOfBounds (fn : ℤ) (i j : ℕ)

/-- `a[i][j]` where `a` has rows of `cols` elements. -/
def Flat.read (a : Flat) (cols i j : ℕ) : Except Failure (BitVec 64) :=
  if i * cols + j < MAXN * MAXN then .ok (a (i * cols + j)) else .error .fault

def validate (fn : ℤ) (M N : ℕ) (A Acopy B Btarg : Flat) : Except Failure Unit := do
  let xM := M + 10
  let xM := if xM > MAXN then MAXN else xM
  checkLoop 0 M fun i => checkLoop 0 N fun j => do
    let got ← B.read N i j
    let expected ← Btarg.read N i j
    if ¬ Same got expected then .error (.mismatch fn expected got i j) else .ok ()
  -- "Look for changes to A"
  checkLoop 0 M fun i => checkLoop 0 N fun j => do
    let now ← A.read M i j
    let before ← Acopy.read M i j
    if ¬ Same now before then .error (.corrupted fn i j) else .ok ()
  -- "Look for out of bounds writes to B, scanning a few more rows"
  checkLoop M xM fun i => checkLoop 0 N fun j => do
    let x ← B.read N i j
    if ¬ Same x 0 then .error (.outOfBounds fn i j) else .ok ()

/-- Whoever is accepted has stored the expected transpose and left `A` as it was. -/
def Sound (M N : ℕ) : Prop := ∀ fn A Acopy B Btarg, validate fn M N A Acopy B Btarg = .ok () →
  (∀ i j, i < M → j < N → Same (B (i * N + j)) (Btarg (i * N + j))) ∧
    ∀ i j, i < N → j < M → Same (A (i * M + j)) (Acopy (i * M + j))

/-! ### What it accepts -/

section Validate
variable {M N : ℕ} {fn : ℤ} {A Acopy B Btarg : Flat}

/-- The rows `validate` reads are rows of the array. -/
theorem read_ok (a : Flat) {cols i j : ℕ} (hi : i < MAXN) (hj : j < MAXN) (hcols : cols ≤ MAXN) :
    a.read cols i j = .ok (a (i * cols + j)) := by
  have hrow : i * cols ≤ i * MAXN := Nat.mul_le_mul_left i hcols
  have hnext : (i + 1) * MAXN ≤ MAXN * MAXN := Nat.mul_le_mul_right MAXN hi
  rw [Nat.succ_mul] at hnext
  exact if_pos (by omega)

/-- The last scan stops at the end of the array. -/
theorem rows_le (M : ℕ) : (if M + 10 > MAXN then MAXN else M + 10) ≤ MAXN := by
  split
  · exact Nat.le_refl _
  · omega

theorem guard_ok {P : Prop} [Decidable P] {e : Failure} :
    (if ¬ P then .error e else .ok () : Except Failure Unit) = .ok () ↔ P := by
  by_cases h : P
  · simp [h]
  · simp [h]

theorem seq_ok {x y : Except Failure Unit} :
    (x >>= fun _ => y) = .ok () ↔ x = .ok () ∧ y = .ok () := by
  cases x with
  | error e =>
    constructor
    · intro h
      cases h
    · rintro ⟨h, -⟩
      cases h
  | ok => exact ⟨fun h => ⟨rfl, h⟩, And.right⟩

theorem scan_ok {lo hi cols : ℕ} {check : ℕ → ℕ → Except Failure Unit} {P : ℕ → ℕ → Prop}
    (h : ∀ i j, i < hi → j < cols → (check i j = .ok () ↔ P i j)) :
    checkLoop lo hi (fun i => checkLoop 0 cols (check i)) = .ok () ↔
      ∀ i j, lo ≤ i → i < hi → j < cols → P i j := by
  simp only [checkLoop_ok]
  constructor
  · exact fun hall i j hlo hi hj => (h i j hi hj).mp (hall i hlo hi j (Nat.zero_le j) hj)
  · exact fun hall i hlo hi j _ hj => (h i j hi hj).mpr (hall i j hlo hi hj)

/-- Two arrays compared element by element. -/
theorem compare_ok {a b : Flat} {lo hi cols width : ℕ} {e : BitVec 64 → BitVec 64 → ℕ → ℕ → Failure}
    (hhi : hi ≤ MAXN) (hcols : cols ≤ MAXN) (hwidth : width ≤ MAXN) :
    checkLoop lo hi (fun i => checkLoop 0 cols fun j => do
      let x ← a.read width i j
      let y ← b.read width i j
      if ¬ Same x y then .error (e x y i j) else .ok ()) = .ok () ↔
    ∀ i j, lo ≤ i → i < hi → j < cols → Same (a (i * width + j)) (b (i * width + j)) := by
  refine scan_ok fun i j hi hj => ?_
  have hin := read_ok a (Nat.lt_of_lt_of_le hi hhi) (Nat.lt_of_lt_of_le hj hcols) hwidth
  have hin' := read_ok b (Nat.lt_of_lt_of_le hi hhi) (Nat.lt_of_lt_of_le hj hcols) hwidth
  rw [hin, hin']
  exact guard_ok

/-- The scans pass one after the other. -/
theorem validate_ok (hM : M ≤ MAXN) (hN : N ≤ MAXN) : validate fn M N A Acopy B Btarg = .ok () ↔
    (∀ i j, 0 ≤ i → i < M → j < N → Same (B (i * N + j)) (Btarg (i * N + j))) ∧
    (∀ i j, 0 ≤ i → i < M → j < N → Same (A (i * M + j)) (Acopy (i * M + j))) ∧
    ∀ i j, M ≤ i → i < (if M + 10 > MAXN then MAXN else M + 10) → j < N →
      Same (B (i * N + j)) 0 := by
  have hlast := rows_le M
  have hbehind := @scan_ok M (if M + 10 > MAXN then MAXN else M + 10) N
    (fun i j => do
      let x ← B.read N i j
      if ¬ Same x 0 then .error (.outOfBounds fn i j) else .ok ())
    (fun i j => Same (B (i * N + j)) 0) fun i j hi hj => by
      rw [read_ok B (Nat.lt_of_lt_of_le hi hlast) (Nat.lt_of_lt_of_le hj hN) hN]
      exact guard_ok
  have hB := @compare_ok B Btarg 0 M N N (fun got expected => .mismatch fn expected got) hM hN hN
  have hA := @compare_ok A Acopy 0 M N M (fun _ _ => .corrupted fn) hM hN hM
  rw [← hB, ← hA, ← hbehind, ← seq_ok, ← seq_ok]
  rfl

theorem seq_inside {x y : Except Failure Unit} (hx : x ≠ .error .fault) (hy : y ≠ .error .fault) :
    (x >>= fun _ => y) ≠ .error .fault := by
  cases x with
  | error e => exact hx
  | ok => exact hy

theorem scan_inside {lo hi cols : ℕ} {check : ℕ → ℕ → Except Failure Unit}
    (h : ∀ i j, i < hi → j < cols → check i j ≠ .error .fault) :
    checkLoop lo hi (fun i => checkLoop 0 cols (check i)) ≠ .error .fault := by
  intro hfault
  obtain ⟨i, -, hi, hrow⟩ := checkLoop_error hfault
  obtain ⟨j, -, hj, hcell⟩ := checkLoop_error hrow
  exact h i j hi hj hcell

theorem guard_inside {P : Prop} [Decidable P] {e : Failure} (he : e ≠ .fault) :
    (if ¬ P then .error e else .ok () : Except Failure Unit) ≠ .error .fault := by
  by_cases h : P
  · simp [h]
  · simpa [h] using he

/-- The scans stay inside the arrays, that of `A` too. -/
theorem validate_inside (hM : M ≤ MAXN) (hN : N ≤ MAXN) :
    validate fn M N A Acopy B Btarg ≠ .error .fault := by
  have hlast := rows_le M
  refine seq_inside (scan_inside fun i j hi hj => ?_) (seq_inside (scan_inside fun i j hi hj => ?_)
    (scan_inside fun i j hi hj => ?_))
  · rw [read_ok B (by omega) (by omega) hN, read_ok Btarg (by omega) (by omega) hN]
    exact guard_inside nofun
  · rw [read_ok A (by omega) (by omega) hM, read_ok Acopy (by omega) (by omega) hM]
    exact guard_inside nofun
  · rw [read_ok B (by omega) (by omega) hN]
    exact guard_inside nofun

/-! ### Which elements of `A` are compared -/

/-- The second scan reaches the element. -/
def Compared (M N k : ℕ) : Prop := ∃ i j, i < M ∧ j < N ∧ i * M + j = k

/-- With fewer rows than columns, the element `A[0][N]` is not reached. -/
theorem not_compared_wide (h : N < M) : ¬ Compared M N N := by
  rintro ⟨i, j, -, hj, heq⟩
  rcases Nat.eq_zero_or_pos i with rfl | hpos
  · omega
  · have hrow : M ≤ i * M := Nat.le_mul_of_pos_left M hpos
    omega

/-- With more rows than columns, and more than one column, the last element is not reached. -/
theorem not_compared_tall (h : M < N) (hM : 2 ≤ M) : ¬ Compared M N ((N - 1) * M + (M - 1)) := by
  rintro ⟨i, j, hi, hj, heq⟩
  have hlast : i * M ≤ (M - 1) * M := Nat.mul_le_mul_right M (Nat.le_sub_one_of_lt hi)
  have hskip : (N - 1) * M = (M - 1) * M + (N - M) * M := by
    rw [← Nat.add_mul]
    congr 1
    omega
  have hrows : (N - M) * 2 ≤ (N - M) * M := Nat.mul_le_mul_left (N - M) hM
  omega

theorem all_compared_iff (hM : 1 ≤ M) (hN : 1 ≤ N) :
    (∀ i j, i < N → j < M → Compared M N (i * M + j)) ↔ M = N ∨ M = 1 := by
  constructor
  · intro hall
    by_contra hne
    rw [not_or] at hne
    rcases Nat.lt_or_gt_of_ne hne.1 with hlt | hgt
    · exact not_compared_tall hlt (by omega) (hall (N - 1) (M - 1) (by omega) (by omega))
    · have h := hall 0 N hN hgt
      rw [Nat.zero_mul, Nat.zero_add] at h
      exact not_compared_wide hgt h
  · rintro (rfl | rfl) i j hi hj
    · exact ⟨i, j, hi, hj, rfl⟩
    · exact ⟨0, i, Nat.one_pos, hi, by omega⟩

/-! ### Changes that pass -/

/-- The double `1e10`, which `initMatrix` stores where `rand` returns 0. -/
def tenBillion : BitVec 64 := 0x4202A05F20000000

/-- The first `n` elements are `1e10`, the others have been cleared. -/
def filled (n : ℕ) : Flat := fun k => if k < n then tenBillion else 0

theorem word_false (m : ℕ) : double.word false m = m := by simp [Format.word]

theorem same_self {x : BitVec 64} (h : x.toNat < double.infinity) : Same x x := by
  refine ⟨fun hnan => ?_, rfl⟩
  rw [← word_false x.toNat, Format.decode_nan_iff (h.trans Format.infinity_lt)] at hnan
  exact absurd h (Nat.lt_asymm hnan)

theorem double_infinity : double.infinity = 2047 * 2 ^ 52 := rfl

theorem same_filled (n k : ℕ) : Same (filled n k) (filled n k) := by
  rw [filled]
  split
  · exact same_self (by rw [double_infinity]; decide)
  · exact same_self (by rw [double_infinity]; decide)

theorem not_same_zero : ¬ Same 0 tenBillion := by
  rintro ⟨-, heq⟩
  rw [← word_false (BitVec.toNat 0), ← word_false tenBillion.toNat, Format.decode_inj
    (by rw [double_infinity]; decide) (by rw [double_infinity]; decide)] at heq
  revert heq
  decide

/-- An element of `A` that is not compared may hold anything. -/
theorem validate_misses (hM : M ≤ MAXN) (hN : N ≤ MAXN) {k : ℕ} (h : ¬ Compared M N k) :
    validate fn M N (Function.update (filled (N * M)) k 0) (filled (N * M)) (filled (M * N))
      (filled (M * N)) = .ok () := by
  rw [validate_ok hM hN]
  refine ⟨fun i j _ _ _ => same_filled _ _, fun i j _ hi hj => ?_, fun i j hlo _ hj => ?_⟩
  · have hne : i * M + j ≠ k := fun heq => h ⟨i, j, hi, hj, heq⟩
    rw [Function.update_of_ne hne]
    exact same_filled _ _
  · have hbehind : ¬ i * N + j < M * N := by
      have hrows : M * N ≤ i * N := Nat.mul_le_mul_right N hlo
      omega
    rw [filled, if_neg hbehind]
    exact same_self (by rw [double_infinity]; decide)

/-- An element that is not compared makes the verdict unsound. -/
theorem not_sound (hM : M ≤ MAXN) (hN : N ≤ MAXN) {i j : ℕ} (hi : i < N) (hj : j < M)
    (h : ¬ Compared M N (i * M + j)) : ¬ Sound M N := by
  intro hsound
  have hsame := (hsound 0 _ _ _ _ (validate_misses hM hN h)).2 i j hi hj
  have hin : i * M + j < N * M := by
    have hrow : (i + 1) * M ≤ N * M := Nat.mul_le_mul_right M hi
    rw [Nat.succ_mul] at hrow
    omega
  rw [Function.update_self, filled, if_pos hin] at hsame
  exact not_same_zero hsame

/-- For every shape the drivers admit: a passed validation proves the transpose right and `A` untouched
    iff `A` is square or has one column. -/
theorem validate_sound_iff (hM : 1 ≤ M ∧ M ≤ MAXN) (hN : 1 ≤ N ∧ N ≤ MAXN) :
    Sound M N ↔ M = N ∨ M = 1 := by
  rw [← all_compared_iff hM.1 hN.1]
  constructor
  · intro hsound i j hi hj
    by_contra h
    exact not_sound hM.2 hN.2 hi hj h hsound
  · intro hall fn A Acopy B Btarg hok
    obtain ⟨hB, hA, -⟩ := (validate_ok hM.2 hN.2).mp hok
    refine ⟨fun i j => hB i j (Nat.zero_le i), fun i j hi hj => ?_⟩
    obtain ⟨i', j', hi', hj', heq⟩ := hall i j hi hj
    rw [← heq]
    exact hA i' j' (Nat.zero_le i') hi' hj'

theorem validate_sound_iff_square : Sound 32 32 :=
  (validate_sound_iff (by decide) (by decide)).mpr (Or.inl rfl)

/-- The graded shape, the right transpose, and the last element of `A` cleared: accepted. -/
theorem validate_accepts_corrupted :
    validate 0 63 65 (Function.update (filled (65 * 63)) (64 * 63 + 62) 0) (filled (65 * 63))
      (filled (63 * 65)) (filled (63 * 65)) = .ok () ∧
    ¬ Same (Function.update (filled (65 * 63)) (64 * 63 + 62) 0 (64 * 63 + 62))
      (filled (65 * 63) (64 * 63 + 62)) := by
  refine ⟨validate_misses (by decide) (by decide) (not_compared_tall (by decide) (by decide)), ?_⟩
  rw [Function.update_self]
  exact not_same_zero

end Validate

end Labs.Trans
