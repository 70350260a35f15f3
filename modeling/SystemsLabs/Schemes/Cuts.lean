import SystemsLabs.Schemes.Buffer

/-! @scheme cuts | structure:pointers to strings cut out of one buffer | used by:in-place scanners

    What bounds a scanner over a buffer is a NUL ahead of it: no string function gets past it. A
    pointer recorded keeps a NUL of its own behind it, before anything recorded later. NULs are only
    added, so that the pointers stay apart from each other whatever the text is (`Cuts.add`). -/

namespace Schemes.Buffer
variable {n p q e bound : ℕ} {b b' : Buffer n} {c : UInt8} {s done : List UInt8}

/-! ### A NUL ahead -/

theorem load_eq_ok : b.load p = .ok c ↔ b.bytes[p]? = some c := by
  rw [load]
  split
  · rename_i hget
    rw [hget]
    simp
  · rename_i hget
    simp [hget]

theorem load_lt (h : b.load p = .ok c) : p < n := by
  rw [← b.size]
  exact (List.getElem?_eq_some_iff.mp (load_eq_ok.mp h)).1

theorem load_of_lt (b : Buffer n) (h : p < n) : ∃ c, b.load p = .ok c := by
  rw [← b.size] at h
  exact ⟨b.bytes[p], load_eq_ok.mpr (List.getElem?_eq_getElem h)⟩

theorem At.nul (h : b.At done s) : b.load (done.length + s.length) = .ok 0 := by
  obtain ⟨⟨rest, hb⟩, -⟩ := h
  rw [load_eq_ok, hb, ← List.length_append]
  simp

/-- A string ends at a NUL behind it, or before. -/
theorem string_of_nul (h : b.load e = .ok 0) (hle : p ≤ e) :
    ∃ s, b.string p = .ok s ∧ p + s.length ≤ e := by
  have hget : (b.bytes.drop p)[e - p]? = some 0 := by
    rw [List.getElem?_drop, Nat.add_sub_cancel' hle, load_eq_ok.mp h]
  refine ⟨cstr (b.bytes.drop p), if_pos (List.mem_of_getElem? hget), ?_⟩
  by_contra hlong
  have hlt : e - p < (cstr (b.bytes.drop p)).length := by omega
  have hpre : cstr (b.bytes.drop p) <+: b.bytes.drop p := List.takeWhile_prefix _
  have hzero : some 0 = some ((cstr (b.bytes.drop p))[e - p]) :=
    hget.symm.trans (List.prefix_iff_getElem?.mp hpre _ hlt)
  exact not_mem_cstr _ (Option.some.inj hzero ▸ List.getElem_mem hlt)

/-- A string lies in the buffer together with the NUL that ends it. -/
theorem string_inside (h : b.string p = .ok s) : p + s.length < n := by
  have hstring := h
  rw [string] at h
  split_ifs at h with h0
  obtain ⟨k, hk⟩ := List.getElem?_of_mem h0
  rw [List.getElem?_drop, ← load_eq_ok] at hk
  obtain ⟨t, ht, hlen⟩ := string_of_nul hk (Nat.le_add_right p k)
  obtain rfl : s = t := Except.ok.inj (hstring.symm.trans ht)
  exact Nat.lt_of_le_of_lt hlen (load_lt hk)

theorem strspn_of_nul (h : b.load e = .ok 0) (hle : p ≤ e) (accept : List UInt8) :
    ∃ k, b.strspn p accept = .ok k ∧ p + k ≤ e := by
  obtain ⟨s, hs, hlen⟩ := string_of_nul h hle
  have hpre := (List.takeWhile_prefix (· ∈ accept) (l := s)).length_le
  exact ⟨_, by rw [strspn, hs, ok_bind]; rfl, by omega⟩

theorem strcspn_of_nul (h : b.load e = .ok 0) (hle : p ≤ e) (reject : List UInt8) :
    ∃ k, b.strcspn p reject = .ok k ∧ p + k ≤ e := by
  obtain ⟨s, hs, hlen⟩ := string_of_nul h hle
  have hpre := (List.takeWhile_prefix (· ∉ reject) (l := s)).length_le
  exact ⟨_, by rw [strcspn, hs, ok_bind]; rfl, by omega⟩

theorem strchr_of_nul (h : b.load e = .ok 0) (hle : p ≤ e) (c : UInt8) :
    ∃ o, b.strchr p c = .ok o ∧ ∀ q, o = some q → p ≤ q ∧ q ≤ e := by
  obtain ⟨s, hs, hlen⟩ := string_of_nul h hle
  have hpre := (List.takeWhile_prefix (· ≠ c) (l := s)).length_le
  refine ⟨_, by rw [strchr, hs, ok_bind]; rfl, fun q hq => ?_⟩
  split_ifs at hq
  cases hq
  omega

/-- Storing a NUL puts it there and leaves the others. -/
theorem store_nul (b : Buffer n) (h : p < n) :
    ∃ b', b.store p 0 = .ok b' ∧ b'.load p = .ok 0 ∧ ∀ q, b.load q = .ok 0 → b'.load q = .ok 0 := by
  have hp : p < b.bytes.length := b.size.symm ▸ h
  refine ⟨_, if_pos h, load_eq_ok.mpr (by simp [hp]), fun q hq => ?_⟩
  rw [load_eq_ok] at hq ⊢
  rcases eq_or_ne p q with rfl | hne
  · simp [hp]
  · rw [List.getElem?_set_ne hne, hq]

/-! ### Pointers apart from each other -/

section Cuts
variable {ι : Type} {ptr ptr' : ι → Option ℕ}

/-- The strings at `p` and `q` have no byte in common, nor the NULs that end them. -/
def Apart (b : Buffer n) (p q : ℕ) : Prop :=
  ∃ s t, b.string p = .ok s ∧ b.string q = .ok t ∧ (p + s.length < q ∨ q + t.length < p)

/-- Each pointer has a NUL behind it, before `bound` and before any pointer further on. -/
structure Cuts (b : Buffer n) (bound : ℕ) (ptr : ι → Option ℕ) : Prop where
  ends : ∀ i p, ptr i = some p → ∃ e, b.load e = .ok 0 ∧ p ≤ e ∧ e < bound
  apart : ∀ i j p q, i ≠ j → ptr i = some p → ptr j = some q →
    ∃ e, b.load e = .ok 0 ∧ (p ≤ e ∧ e < q ∨ q ≤ e ∧ e < p)

theorem Cuts.none (b : Buffer n) (bound : ℕ) : b.Cuts bound (fun _ : ι => Option.none) :=
  ⟨nofun, nofun⟩

/-- Pointers may be dropped, and the bound moved on. -/
theorem Cuts.mono {bound' : ℕ} (h : b.Cuts bound ptr) (hle : bound ≤ bound')
    (hptr : ∀ i p, ptr' i = some p → ptr i = some p) : b.Cuts bound' ptr' := by
  constructor
  · intro i p hp
    obtain ⟨e, he, hpe, hlt⟩ := h.ends i p (hptr i p hp)
    exact ⟨e, he, hpe, by omega⟩
  · intro i j p q hne hp hq
    exact h.apart i j p q hne (hptr i p hp) (hptr j q hq)

/-- A pointer is recorded past the bound, and a NUL stored behind it. -/
theorem Cuts.add [DecidableEq ι] (h : b.Cuts bound ptr) (i : ι) (hq : bound ≤ q) (hqe : q ≤ e)
    (hnul : b'.load e = .ok 0) (hkept : ∀ e, b.load e = .ok 0 → b'.load e = .ok 0) :
    b'.Cuts (e + 1) (Function.update ptr i (some q)) := by
  have hold : ∀ j p, ptr j = some p → ∃ e, b'.load e = .ok 0 ∧ p ≤ e ∧ e < q := fun j p hp => by
    obtain ⟨e, he, hpe, hlt⟩ := h.ends j p hp
    exact ⟨e, hkept e he, hpe, by omega⟩
  constructor
  · intro j p hp
    rcases eq_or_ne j i with rfl | hj
    · rw [Function.update_self] at hp
      cases hp
      exact ⟨e, hnul, hqe, Nat.lt_succ_self e⟩
    · rw [Function.update_of_ne hj] at hp
      obtain ⟨e', he', hpe, hlt⟩ := hold j p hp
      exact ⟨e', he', hpe, by omega⟩
  · intro j k p r hne hp hr
    rcases eq_or_ne j i with rfl | hj
    · rw [Function.update_self] at hp
      rw [Function.update_of_ne hne.symm] at hr
      cases hp
      obtain ⟨e', he', hre, hlt⟩ := hold k r hr
      exact ⟨e', he', Or.inr ⟨hre, hlt⟩⟩
    · rw [Function.update_of_ne hj] at hp
      rcases eq_or_ne k i with rfl | hk
      · rw [Function.update_self] at hr
        cases hr
        obtain ⟨e', he', hpe, hlt⟩ := hold j p hp
        exact ⟨e', he', Or.inl ⟨hpe, hlt⟩⟩
      · rw [Function.update_of_ne hk] at hr
        obtain ⟨e', he', hbetween⟩ := h.apart j k p r hne hp hr
        exact ⟨e', hkept e' he', hbetween⟩

theorem Cuts.string (h : b.Cuts bound ptr) {i : ι} (hp : ptr i = some p) :
    ∃ s, b.string p = .ok s := by
  obtain ⟨e, he, hpe, -⟩ := h.ends i p hp
  obtain ⟨s, hs, -⟩ := string_of_nul he hpe
  exact ⟨s, hs⟩

theorem Cuts.disjoint (h : b.Cuts bound ptr) {i j : ι} (hne : i ≠ j) (hp : ptr i = some p)
    (hq : ptr j = some q) : b.Apart p q := by
  obtain ⟨s, hs⟩ := h.string hp
  obtain ⟨t, ht⟩ := h.string hq
  refine ⟨s, t, hs, ht, ?_⟩
  obtain ⟨e, he, ⟨hpe, heq⟩ | ⟨hqe, hep⟩⟩ := h.apart i j p q hne hp hq
  · obtain ⟨s', hs', hlen⟩ := string_of_nul he hpe
    obtain rfl : s = s' := Except.ok.inj (hs.symm.trans hs')
    exact Or.inl (by omega)
  · obtain ⟨t', ht', hlen⟩ := string_of_nul he hqe
    obtain rfl : t = t' := Except.ok.inj (ht.symm.trans ht')
    exact Or.inr (by omega)

end Cuts

end Schemes.Buffer
