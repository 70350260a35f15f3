import SystemsLabs.Schemes.Loop

/-! @lab cachelab | file:trans.c, cachelab.c | structure:matrix transpose | scheme:loop |
    main result:transpose_submit_transposes

    Every path stores `A[i][j]` in `B[j][i]`. The 32x32 path goes by blocks of 8x8 and keeps each
    diagonal element in `tmp[0]` until the row of its block is done. The three arrays are apart; an
    access outside one of them is a fault. The contracts are compiled in under `DEBUG` only, and the
    `int` counters of the blocked path stay below `SQUARE + SQUARE_BLOCK`. -/

namespace Labs.Trans
open Schemes

def TMPCOUNT : ℕ := 256

def SQUARE_BLOCK : ℕ := 8

def SQUARE : ℕ := 32

/-- `double G[rows][cols]`. -/
abbrev Grid (rows cols : ℕ) (α : Type) := Fin rows → Fin cols → α

/-- The arrays of a call; `touched` lists the elements of `tmp` read or written so far. -/
structure Arrays (M N : ℕ) (α : Type) where
  A : Grid N M α
  B : Grid M N α
  tmp : Fin TMPCOUNT → α
  touched : List ℕ

variable {M N : ℕ} {α : Type}

namespace Arrays

/-- `A[i][j]`. -/
def getA (m : Arrays M N α) (i j : ℕ) : Except Stop α :=
  if h : i < N ∧ j < M then .ok (m.A ⟨i, h.1⟩ ⟨j, h.2⟩) else .error .fault

/-- `B[j][i] = x`. -/
def setB (m : Arrays M N α) (j i : ℕ) (x : α) : Except Stop (Arrays M N α) :=
  if h : j < M ∧ i < N then
    .ok { m with B := Function.update m.B ⟨j, h.1⟩ (Function.update (m.B ⟨j, h.1⟩) ⟨i, h.2⟩ x) }
  else .error .fault

/-- `tmp[k]`. -/
def getTmp (m : Arrays M N α) (k : ℕ) : Except Stop (α × Arrays M N α) :=
  if h : k < TMPCOUNT then .ok (m.tmp ⟨k, h⟩, { m with touched := k :: m.touched })
  else .error .fault

/-- `tmp[k] = x`. -/
def setTmp (m : Arrays M N α) (k : ℕ) (x : α) : Except Stop (Arrays M N α) :=
  if h : k < TMPCOUNT then
    .ok { m with tmp := Function.update m.tmp ⟨k, h⟩ x, touched := k :: m.touched }
  else .error .fault

end Arrays

def transpose_square (fuel : ℕ) (m : Arrays M N α) : Except Stop (Arrays M N α) :=
  forLoop N SQUARE_BLOCK (fun i m =>
    forLoop M SQUARE_BLOCK (fun j m =>
      forLoop (i + SQUARE_BLOCK) 1 (fun i1 m => do
        let m ← forLoop (j + SQUARE_BLOCK) 1 (fun j1 m => do
          if i1 = j1 then m.setTmp 0 (← m.getA i1 i1)
          else m.setB j1 i1 (← m.getA i1 j1)) fuel j m
        if i = j then do
          let (x, m) ← m.getTmp 0
          m.setB i1 i1 x
        else return m) fuel i m) fuel 0 m) fuel 0 m

def trans (fuel : ℕ) (m : Arrays M N α) : Except Stop (Arrays M N α) :=
  forLoop N 1 (fun i m => forLoop M 1 (fun j m => do m.setB j i (← m.getA i j)) fuel 0 m) fuel 0 m

def transpose_submit (fuel : ℕ) (m : Arrays M N α) : Except Stop (Arrays M N α) :=
  if M = N then
    if M = SQUARE then transpose_square fuel m else trans fuel m
  else trans fuel m

/-- The reference; its `tmp` is a local variable. -/
def correctTrans (fuel : ℕ) (m : Arrays M N α) : Except Stop (Arrays M N α) :=
  forLoop N 1 (fun i m => forLoop M 1 (fun j m => do
    let tmp ← m.getA i j
    m.setB j i tmp) fuel 0 m) fuel 0 m

/-! ### The invariant: which cells are final -/

/-- From `m₀`, the cells of `A` in `D` were stored, and nothing but `B` and `tmp[0]` touched. -/
structure Filled (m₀ : Arrays M N α) (D : ℕ → ℕ → Prop) (m : Arrays M N α) : Prop where
  source : m.A = m₀.A
  final : ∀ (i : Fin N) (j : Fin M), D i j → m.B j i = m₀.A i j
  rest : ∀ k, k.val ≠ 0 → m.tmp k = m₀.tmp k
  touched : ∀ k ∈ m.touched, k ∈ m₀.touched ∨ k = 0

variable {m₀ m m' : Arrays M N α} {D D' : ℕ → ℕ → Prop} {i j : ℕ}

theorem Filled.start : Filled m (fun _ _ => False) m :=
  ⟨rfl, fun _ _ h => h.elim, fun _ _ => rfl, fun _ h => Or.inl h⟩

theorem Filled.mono (h : Filled m₀ D m) (hD : ∀ r c, r < N → c < M → D' r c → D r c) :
    Filled m₀ D' m :=
  { h with final := fun i j hij => h.final i j (hD i j i.isLt j.isLt hij) }

theorem Filled.getA (h : Filled m₀ D m) (hi : i < N) (hj : j < M) :
    m.getA i j = .ok (m₀.A ⟨i, hi⟩ ⟨j, hj⟩) := by
  rw [Arrays.getA, dif_pos ⟨hi, hj⟩, h.source]

/-- A store of the right value: the cell joins the final ones, whatever it was. -/
theorem Filled.setB (h : Filled m₀ D m) (hi : i < N) (hj : j < M) :
    ∃ m', m.setB j i (m₀.A ⟨i, hi⟩ ⟨j, hj⟩) = .ok m' ∧ m'.tmp = m.tmp ∧
      Filled m₀ (fun r c => D r c ∨ r = i ∧ c = j) m' := by
  refine ⟨_, dif_pos ⟨hj, hi⟩, rfl, h.source, fun r c hrc => ?_, h.rest, h.touched⟩
  by_cases hc : c = ⟨j, hj⟩
  · subst hc
    by_cases hr : r = ⟨i, hi⟩
    · subst hr
      simp
    · have hold : D r j := hrc.resolve_right fun hin => hr (Fin.ext hin.1)
      simpa [hr] using h.final r ⟨j, hj⟩ hold
  · have hold : D r c := hrc.resolve_right fun hin => hc (Fin.ext hin.2)
    simpa [hc] using h.final r c hold

/-- `tmp[0] = x`. -/
theorem Filled.setTmp (h : Filled m₀ D m) (x : α) :
    ∃ m', m.setTmp 0 x = .ok m' ∧ m'.tmp ⟨0, by decide⟩ = x ∧ Filled m₀ D m' := by
  refine ⟨_, dif_pos (by decide), by simp, h.source, h.final, fun k hk => ?_, fun k hk => ?_⟩
  · have hne : k ≠ ⟨0, by decide⟩ := fun heq => hk (congrArg Fin.val heq)
    simpa [hne] using h.rest k hk
  · rcases List.mem_cons.mp hk with rfl | hk
    · exact Or.inr rfl
    · exact h.touched k hk

theorem Filled.getTmp (h : Filled m₀ D m) :
    ∃ m', m.getTmp 0 = .ok (m.tmp ⟨0, by decide⟩, m') ∧ Filled m₀ D m' := by
  refine ⟨_, dif_pos (by decide), h.source, h.final, h.rest, fun k hk => ?_⟩
  rcases List.mem_cons.mp hk with rfl | hk
  · exact Or.inr rfl
  · exact h.touched k hk

/-- `B[j][i] = A[i][j]`. -/
theorem Filled.copy (h : Filled m₀ D m) (hi : i < N) (hj : j < M) :
    ∃ m', (do m.setB j i (← m.getA i j)) = .ok m' ∧ m'.tmp = m.tmp ∧
      Filled m₀ (fun r c => D r c ∨ r = i ∧ c = j) m' := by
  obtain ⟨m', hset, htmp, hm'⟩ := h.setB hi hj
  exact ⟨m', by rw [h.getA hi hj, ok_bind, hset], htmp, hm'⟩

/-! ### Row by row -/

theorem trans_row (h : Filled m₀ (fun r _ => r < i) m) (hi : i < N) :
    ∃ m', Converges (fun fuel =>
        forLoop M 1 (fun j m => do m.setB j i (← m.getA i j)) fuel 0 m) m' ∧
      Filled m₀ (fun r _ => r < i + 1) m' := by
  refine forLoop_converges (n := M) (I := fun k => Filled m₀ fun r c => r < i ∨ r = i ∧ c < k)
    (by omega) (by omega) (fun k hk s hs => ?_) (h.mono fun r c _ _ hrc => by omega)
    (fun s hs => hs.mono fun r c _ hc hr => by omega)
  obtain ⟨s', hcopy, -, hs'⟩ := hs.copy hi (j := 0 + k * 1) (by omega)
  exact ⟨s', hcopy ▸ .const, hs'.mono fun r c _ _ hrc => by omega⟩

theorem trans_filled (m : Arrays M N α) :
    ∃ m', Converges (fun fuel => trans fuel m) m' ∧ Filled m (fun r _ => r < N) m' := by
  refine forLoop_converges (n := N) (I := fun k => Filled m fun r _ => r < k) (by omega) (by omega)
    (fun k hk s hs => ?_) (Filled.start.mono (by simp)) (fun s hs => hs)
  simpa using trans_row hs hk

/-! ### By blocks -/

/-- The cells of row `i1` in the block column at `j`, without the diagonal; it waits in `tmp[0]`. -/
theorem square_row (i1 : ℕ) (h : Filled m₀ D m) (hi : i1 < N) (hj : j + SQUARE_BLOCK ≤ M) :
    ∃ m', Converges (fun fuel => forLoop (j + SQUARE_BLOCK) 1 (fun j1 m => do
        if i1 = j1 then m.setTmp 0 (← m.getA i1 i1)
        else m.setB j1 i1 (← m.getA i1 j1)) fuel j m) m' ∧
      Filled m₀ (fun r c => D r c ∨ r = i1 ∧ j ≤ c ∧ c < j + SQUARE_BLOCK ∧ c ≠ i1) m' ∧
      (∀ hdiag : i1 < M, j ≤ i1 → i1 < j + SQUARE_BLOCK →
        m'.tmp ⟨0, by decide⟩ = m₀.A ⟨i1, hi⟩ ⟨i1, hdiag⟩) := by
  refine forLoop_converges (n := SQUARE_BLOCK) (I := fun k m =>
      Filled m₀ (fun r c => D r c ∨ r = i1 ∧ j ≤ c ∧ c < j + k ∧ c ≠ i1) m ∧
      (∀ hdiag : i1 < M, j ≤ i1 → i1 < j + k →
        m.tmp ⟨0, by decide⟩ = m₀.A ⟨i1, hi⟩ ⟨i1, hdiag⟩))
    (by omega) (by omega) (fun k hk s hs => ?_)
    ⟨h.mono fun r c _ _ hrc => by grind, fun _ _ _ => by omega⟩ (fun s hs => hs)
  obtain ⟨hfill, htmp⟩ := hs
  by_cases heq : i1 = j + k * 1
  · have hdiag : i1 < M := by omega
    obtain ⟨s', hset, hx, hs'⟩ := hfill.setTmp (m₀.A ⟨i1, hi⟩ ⟨i1, hdiag⟩)
    refine ⟨s', ?_, hs'.mono fun r c _ _ hrc => by grind, fun _ _ _ => hx⟩
    simp only [if_pos heq, hfill.getA hi hdiag, ok_bind, hset]
    exact .const
  · obtain ⟨s', hcopy, htmp', hs'⟩ := hfill.copy hi (j := j + k * 1) (by omega)
    refine ⟨s', ?_, hs'.mono fun r c _ _ hrc => by grind, fun hdiag hle hlt => ?_⟩
    · simp only [if_neg heq, hcopy]
      exact .const
    · rw [htmp']
      exact htmp hdiag hle (by omega)

/-- A row of a block: once the diagonal element is stored, every cell of the row is final. -/
theorem square_block_row (i1 : ℕ) (h : Filled m₀ D m) (hi : SQUARE_BLOCK ∣ i)
    (hj : SQUARE_BLOCK ∣ j) (hle : i ≤ i1) (hlt : i1 < i + SQUARE_BLOCK)
    (hN : i + SQUARE_BLOCK ≤ N) (hM : j + SQUARE_BLOCK ≤ M) :
    ∃ m', Converges (fun fuel => do
        let m ← forLoop (j + SQUARE_BLOCK) 1 (fun j1 m => do
          if i1 = j1 then m.setTmp 0 (← m.getA i1 i1)
          else m.setB j1 i1 (← m.getA i1 j1)) fuel j m
        if i = j then do
          let (x, m) ← m.getTmp 0
          m.setB i1 i1 x
        else return m) m' ∧
      Filled m₀ (fun r c => D r c ∨ r = i1 ∧ j ≤ c ∧ c < j + SQUARE_BLOCK) m' := by
  have hapart : i ≠ j → ¬(j ≤ i1 ∧ i1 < j + SQUARE_BLOCK) := by
    simp only [SQUARE_BLOCK] at hi hj hlt ⊢
    omega
  have hrow : i1 < N := by omega
  obtain ⟨m₁, hloop, hfill, htmp⟩ := square_row i1 h hrow hM
  by_cases heq : i = j
  · subst heq
    have hdiag : i1 < M := by omega
    obtain ⟨m₂, hget, hm₂⟩ := hfill.getTmp
    obtain ⟨m', hset, -, hm'⟩ := hm₂.setB hrow hdiag
    refine ⟨m', hloop.bind ?_, hm'.mono fun r c _ _ hrc => by grind⟩
    simp only [if_pos, hget, ok_bind, htmp hdiag hle hlt, hset]
    exact .const
  · refine ⟨m₁, hloop.bind ?_, hfill.mono fun r c _ _ hrc => by grind⟩
    simp only [if_neg heq]
    exact .const

/-- For every shape made of whole blocks: rows of blocks, the blocks of one, the rows of a block. -/
theorem transpose_square_filled (m : Arrays M N α) (hM : SQUARE_BLOCK ∣ M)
    (hN : SQUARE_BLOCK ∣ N) :
    ∃ m', Converges (fun fuel => transpose_square fuel m) m' ∧ Filled m (fun r _ => r < N) m' := by
  unfold transpose_square SQUARE_BLOCK
  unfold SQUARE_BLOCK at hM hN
  obtain ⟨q, hq⟩ := hM
  obtain ⟨p, hp⟩ := hN
  refine forLoop_converges (n := p) (I := fun k => Filled m fun r _ => r < 8 * k)
    (by omega) (by omega) (fun a ha m₁ h₁ => ?_) (Filled.start.mono (by simp))
    (fun s hs => hs.mono fun r c _ _ hrc => by omega)
  refine forLoop_converges (n := q)
    (I := fun k => Filled m fun r c => r < 8 * a ∨ r < 8 * (a + 1) ∧ c < 8 * k)
    (by omega) (by omega) (fun b hb m₂ h₂ => ?_) (h₁.mono fun r c _ _ hrc => by omega)
    (fun s hs => hs.mono fun r c _ _ hrc => by omega)
  refine forLoop_converges (n := 8)
    (I := fun k => Filled m fun r c => r < 8 * a ∨ r < 8 * (a + 1) ∧ c < 8 * b ∨
      r < 8 * a + k ∧ c < 8 * (b + 1))
    (by omega) (by omega) (fun k hk m₃ h₃ => ?_) (h₂.mono fun r c _ _ hrc => by omega)
    (fun s hs => hs.mono fun r c _ _ hrc => by omega)
  have hsize : SQUARE_BLOCK = 8 := rfl
  obtain ⟨m', hrun, hm'⟩ := square_block_row (0 + a * 8 + k * 1) (i := 0 + a * 8)
    (j := 0 + b * 8) h₃ (by rw [hsize]; omega) (by rw [hsize]; omega) (by omega)
    (by omega) (by omega) (by omega)
  exact ⟨m', hrun, hm'.mono fun r c _ _ hrc => by omega⟩

/-! ### The dispatch -/

theorem transpose_submit_filled (m : Arrays M N α) :
    ∃ m', Converges (fun fuel => transpose_submit fuel m) m' ∧ Filled m (fun r _ => r < N) m' := by
  unfold transpose_submit
  split_ifs with hsquare hsize
  · subst hsquare hsize
    exact transpose_square_filled m (by decide) (by decide)
  · exact trans_filled m
  · exact trans_filled m

theorem Filled.transposed (h : Filled m₀ (fun r _ => r < N) m) : m.B = fun j i => m₀.A i j :=
  funext₂ fun j i => h.final i j i.isLt

/-- The submission transposes every shape, within the bounds and through `tmp[0]` alone, and both
    of its paths store what the reference stores. -/
theorem transpose_submit_transposes (m : Arrays M N α) :
    ∃ m', Converges (fun fuel => transpose_submit fuel m) m' ∧
      (∀ i j, m'.B j i = m.A i j) ∧ m'.A = m.A ∧
      (∀ k ∈ m'.touched, k ∈ m.touched ∨ k = 0) ∧ (∀ k, k.val ≠ 0 → m'.tmp k = m.tmp k) ∧
      (∃ row, Converges (fun fuel => trans fuel m) row ∧ row.B = m'.B) ∧
      ∃ ref, Converges (fun fuel => correctTrans fuel m) ref ∧ ref.B = m'.B := by
  obtain ⟨m', hrun, hm'⟩ := transpose_submit_filled m
  obtain ⟨row, hrow, hfill⟩ := trans_filled m
  have hsame : row.B = m'.B := hfill.transposed.trans hm'.transposed.symm
  exact ⟨m', hrun, fun i j => hm'.final i j i.isLt, hm'.source, hm'.touched, hm'.rest,
    ⟨row, hrow, hsame⟩, row, hrow, hsame⟩

end Labs.Trans
