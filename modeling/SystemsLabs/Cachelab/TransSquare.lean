import SystemsLabs.Cachelab.Trans

/-! @lab cachelab | file:trans.c | structure:matrix transpose by blocks | scheme:loop |
    main result:the shapes transpose_square is right for

    `transpose_square` is registered next to the submission, so the drivers run it on the shape they are
    given. Its inner loops take their bounds from the block: they run to the end of the block whether
    the matrix does or not. The element at the far corner of the last block is read in every run, so a
    run without an access outside `A` needs both sides to be made of whole blocks; where they are, the
    shape may be any rectangle of them. -/

namespace Labs.Trans
open Schemes

/-- `#define MAXN 256` in cachelab.h. -/
def MAXN : ℕ := 256

section Square
variable {M N : ℕ} {α : Type} {m m' : Arrays M N α} {i j : ℕ}

theorem getA_in {x : α} (h : m.getA i j = .ok x) : i < N ∧ j < M := by
  unfold Arrays.getA at h
  split at h
  · rename_i hin
    exact hin
  · cases h

/-- A round of the innermost loop reads `A[i1][j1]`, on the diagonal too. -/
theorem round_in (h : (if i = j then do m.setTmp 0 (← m.getA i i)
    else do m.setB j i (← m.getA i j)) = .ok m') : i < N ∧ j < M := by
  split at h
  · rename_i hdiag
    obtain ⟨x, hx, -⟩ := bind_ok h
    exact hdiag ▸ getA_in hx
  · obtain ⟨x, hx, -⟩ := bind_ok h
    exact getA_in hx

/-- A run that ends has read the last element of the block that starts at row `8 * a`, column
    `8 * b`. -/
theorem transpose_square_reads {fuel : ℕ} (hrun : transpose_square fuel m = .ok m') (a b : ℕ)
    (ha : a * SQUARE_BLOCK < N) (hb : b * SQUARE_BLOCK < M) :
    a * SQUARE_BLOCK + 7 < N ∧ b * SQUARE_BLOCK + 7 < M := by
  have hsize : SQUARE_BLOCK = 8 := rfl
  unfold transpose_square at hrun
  obtain ⟨m₁, m₂, hrows⟩ := forLoop_round hrun a (by omega)
  obtain ⟨m₃, m₄, hblock⟩ := forLoop_round hrows b (by omega)
  obtain ⟨m₅, m₆, hrow⟩ := forLoop_round hblock 7 (by omega)
  obtain ⟨m₇, hcells, -⟩ := bind_ok hrow
  obtain ⟨m₈, m₉, hcell⟩ := forLoop_round hcells 7 (by omega)
  have hin := round_in hcell
  omega

/-- Whole blocks, on both sides. -/
theorem dvd_of_reads {fuel : ℕ} (hM : 1 ≤ M) (hN : 1 ≤ N) (hrun : transpose_square fuel m = .ok m') :
    SQUARE_BLOCK ∣ M ∧ SQUARE_BLOCK ∣ N := by
  have hsize : SQUARE_BLOCK = 8 := rfl
  have ha : (N - 1) / 8 * SQUARE_BLOCK < N := by rw [hsize]; omega
  have hb : (M - 1) / 8 * SQUARE_BLOCK < M := by rw [hsize]; omega
  obtain ⟨hrow, hcol⟩ := transpose_square_reads hrun _ _ ha hb
  rw [hsize] at hrow hcol ⊢
  omega

/-- The blocked transpose of a matrix with at least one element ends without a fault, with `A`
    unchanged and its transpose in `B`, iff the matrix is made of whole blocks. -/
theorem transpose_square_correct (m : Arrays M N α) (hM : 1 ≤ M ∧ M ≤ MAXN) (hN : 1 ≤ N ∧ N ≤ MAXN) :
    (∃ m', Converges (fun fuel => transpose_square fuel m) m' ∧ m'.A = m.A ∧
      (∀ i j, m'.B j i = m.A i j) ∧ ∀ k ∈ m'.touched, k ∈ m.touched ∨ k = 0) ↔
    SQUARE_BLOCK ∣ M ∧ SQUARE_BLOCK ∣ N := by
  constructor
  · rintro ⟨m', ⟨fuel, hrun⟩, -⟩
    exact dvd_of_reads hM.1 hN.1 (hrun fuel (Nat.le_refl fuel))
  · rintro ⟨h₁, h₂⟩
    obtain ⟨m', hrun, hm'⟩ := transpose_square_filled m h₁ h₂
    exact ⟨m', hrun, hm'.source, fun i j => hm'.final i j i.isLt, hm'.touched⟩

end Square

/-- A matrix of the given shape full of zeros. -/
def zeros (M N : ℕ) : Arrays M N ℕ := ⟨fun _ _ => 0, fun _ _ => 0, fun _ => 0, []⟩

theorem transpose_square_correct_rectangle :
    ∃ m', Converges (fun fuel => transpose_square fuel (zeros 16 24)) m' ∧ m'.A = (zeros 16 24).A := by
  obtain ⟨m', hrun, hA, -⟩ := (transpose_square_correct (zeros 16 24) (by decide) (by decide)).mpr
    ⟨by decide, by decide⟩
  exact ⟨m', hrun, hA⟩

/-- One element: with any fuel beyond 2 the run stops at an access outside the arrays. 65 rows of 63:
    no run ends. -/
theorem transpose_square_overruns :
    (∀ k, transpose_square (k + 3) (zeros 1 1) = .error .fault) ∧
      ¬ ∃ m', Converges (fun fuel => transpose_square fuel (zeros 63 65)) m' := by
  refine ⟨fun _ => rfl, ?_⟩
  rintro ⟨m', fuel, hrun⟩
  have hdvd := dvd_of_reads (by decide) (by decide) (hrun fuel (Nat.le_refl fuel))
  revert hdvd
  decide

end Labs.Trans
