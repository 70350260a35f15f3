import SystemsLabs.Schemes.Heap

/-! @scheme loop | structure:counted loops with fuel | used by:array programs

    `for (i = lo; i < hi; i += step) body`. The body may loop itself and gets the fuel too. The rule
    takes an invariant by the number of rounds done; a loop whose rounds all converge converges, so
    termination and the invariant come together. A loop that only checks is left at the first failure. -/

namespace Schemes
variable {σ γ δ : Type} {s : σ}

/-- The loop from the counter value `i` on. -/
def forLoop (hi step : ℕ) (body : ℕ → σ → Except Stop σ) : ℕ → ℕ → σ → Except Stop σ
  | 0, _, _ => .error .fuel
  | n + 1, i, s =>
    if i < hi then do
      let s ← body i s
      forLoop hi step body n (i + step) s
    else .ok s

theorem Converges.bind {f : ℕ → Except Stop γ} {g : ℕ → γ → Except Stop δ} {r : γ} {t : δ}
    (hf : Converges f r) (hg : Converges (fun fuel => g fuel r) t) :
    Converges (fun fuel => f fuel >>= g fuel) t := by
  obtain ⟨N, hN⟩ := hf
  obtain ⟨K, hK⟩ := hg
  refine ⟨max N K, fun fuel hfuel => ?_⟩
  change f fuel >>= g fuel = _
  rw [hN fuel (by omega), ok_bind]
  exact hK fuel (by omega)

/-- A loop that ends has ended every round it makes. -/
theorem forLoop_round {hi step : ℕ} {body : ℕ → σ → Except Stop σ} {s' : σ} :
    ∀ {n lo : ℕ} {s : σ}, forLoop hi step body n lo s = .ok s' → ∀ k, lo + k * step < hi →
      ∃ t t', body (lo + k * step) t = .ok t'
  | 0, _, _, hrun, _, _ => by cases hrun
  | n + 1, lo, s, hrun, k, hk => by
      have hlo : lo < hi := Nat.lt_of_le_of_lt (Nat.le_add_right lo (k * step)) hk
      rw [forLoop, if_pos hlo] at hrun
      obtain ⟨s₁, hround, hrest⟩ := bind_ok hrun
      cases k with
      | zero => exact ⟨s, s₁, by rw [Nat.zero_mul, Nat.add_zero]; exact hround⟩
      | succ k =>
        have hshift : lo + (k + 1) * step = lo + step + k * step := by
          rw [Nat.succ_mul]
          omega
        rw [hshift] at hk ⊢
        exact forLoop_round hrest k hk

/-- Loop rule: `I k` holds after `k` rounds, and after `n` rounds the counter is at the bound. -/
theorem forLoop_converges {I : ℕ → σ → Prop} {P : σ → Prop} {hi step : ℕ}
    {body : ℕ → ℕ → σ → Except Stop σ} {n lo : ℕ}
    (hlast : hi ≤ lo + n * step) (hrange : ∀ k < n, lo + k * step < hi)
    (hbody : ∀ k < n, ∀ s, I k s →
      ∃ s', Converges (fun fuel => body fuel (lo + k * step) s) s' ∧ I (k + 1) s')
    (hinit : I 0 s) (hexit : ∀ s, I n s → P s) :
    ∃ s', Converges (fun fuel => forLoop hi step (body fuel) fuel lo s) s' ∧ P s' := by
  -- The fuel of the loop and that of its body are told apart for the induction on the rounds.
  suffices hboth : ∃ s', (∃ N, ∀ fuel fuel', N ≤ fuel → N ≤ fuel' →
      forLoop hi step (body fuel) fuel' lo s = .ok s') ∧ I n s' by
    obtain ⟨s', ⟨N, hN⟩, hI⟩ := hboth
    exact ⟨s', ⟨N, fun fuel hfuel => hN fuel fuel hfuel hfuel⟩, hexit s' hI⟩
  clear hexit
  induction n generalizing I lo s with
  | zero =>
    refine ⟨s, ⟨1, fun fuel fuel' _ hfuel' => ?_⟩, hinit⟩
    obtain ⟨k, rfl⟩ := Nat.exists_eq_add_of_le' hfuel'
    rw [forLoop, if_neg (by omega)]
  | succ n ih =>
    obtain ⟨s₁, ⟨N, hN⟩, h₁⟩ := hbody 0 (Nat.succ_pos n) s hinit
    have hshift : ∀ k, lo + step + k * step = lo + (k + 1) * step := fun k => by
      rw [Nat.succ_mul]
      omega
    obtain ⟨s', ⟨K, hK⟩, hI⟩ := @ih s₁ (fun k => I (k + 1)) (lo + step)
      (by rw [hshift]; exact hlast) (fun k hk => by rw [hshift]; exact hrange (k + 1) (by omega))
      (fun k hk s hs => by rw [hshift]; exact hbody (k + 1) (by omega) s hs) h₁
    refine ⟨s', ⟨max N K + 1, fun fuel fuel' hfuel hfuel' => ?_⟩, hI⟩
    obtain ⟨k, rfl⟩ := Nat.exists_eq_add_of_le' (Nat.one_le_of_lt (Nat.lt_of_succ_le hfuel'))
    have hlo : lo < hi := by simpa using hrange 0 (Nat.succ_pos n)
    have hround : body fuel lo s = .ok s₁ := by simpa using hN fuel (by omega)
    rw [forLoop, if_pos hlo, hround, ok_bind]
    exact hK fuel k (by omega) (by omega)

/-! ### Loops that only check -/

section Check
variable {ε : Type} {check : ℕ → Except ε Unit} {lo hi : ℕ}

/-- `for (i = lo; i < hi; i++) check`, left at the first failure. -/
def checkLoop (lo hi : ℕ) (check : ℕ → Except ε Unit) : Except ε Unit :=
  (List.range' lo (hi - lo)).forM check

theorem forM_cases (l : List ℕ) (check : ℕ → Except ε Unit) :
    (l.forM check = .ok () ∧ ∀ i ∈ l, check i = .ok ()) ∨
      ∃ i ∈ l, ∃ e, check i = .error e ∧ l.forM check = .error e := by
  induction l with
  | nil => exact Or.inl ⟨rfl, by simp⟩
  | cons a l ih =>
    have hcons : (a :: l).forM check = (check a >>= fun _ => l.forM check) := rfl
    cases ha : check a with
    | error e => exact Or.inr ⟨a, by simp, e, ha, by rw [hcons, ha]; rfl⟩
    | ok =>
      have hrest : (a :: l).forM check = l.forM check := by rw [hcons, ha]; rfl
      rcases ih with ⟨hok, hall⟩ | ⟨i, hi, e, he, herr⟩
      · exact Or.inl ⟨hrest.trans hok, by simpa [ha] using hall⟩
      · exact Or.inr ⟨i, List.mem_cons_of_mem a hi, e, he, hrest.trans herr⟩

theorem mem_range_loop {i : ℕ} : i ∈ List.range' lo (hi - lo) ↔ lo ≤ i ∧ i < hi := by
  rw [List.mem_range'_1]
  omega

/-- It gets to its end if every check passes. -/
theorem checkLoop_ok : checkLoop lo hi check = .ok () ↔ ∀ i, lo ≤ i → i < hi → check i = .ok () := by
  rw [checkLoop]
  rcases forM_cases (List.range' lo (hi - lo)) check with ⟨hok, hall⟩ | ⟨i, hmem, e, he, herr⟩
  · exact ⟨fun _ i hlo hlt => hall i (mem_range_loop.mpr ⟨hlo, hlt⟩), fun _ => hok⟩
  · rw [herr]
    constructor
    · intro h
      cases h
    · intro h
      obtain ⟨hlo, hlt⟩ := mem_range_loop.mp hmem
      cases he.symm.trans (h i hlo hlt)

/-- It fails as one of its checks does. -/
theorem checkLoop_error {e : ε} (h : checkLoop lo hi check = .error e) :
    ∃ i, lo ≤ i ∧ i < hi ∧ check i = .error e := by
  rw [checkLoop] at h
  rcases forM_cases (List.range' lo (hi - lo)) check with ⟨hok, -⟩ | ⟨i, hmem, e', he, herr⟩
  · rw [hok] at h
    cases h
  · obtain ⟨hlo, hlt⟩ := mem_range_loop.mp hmem
    rw [herr] at h
    cases h
    exact ⟨i, hlo, hlt, he⟩

end Check

end Schemes
