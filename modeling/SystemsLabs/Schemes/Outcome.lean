import SystemsLabs.Schemes.Heap

/-! @scheme outcome | structure:results and when there is one | used by:command interpreters

    `Meets r safe post`: if `r` is a result then `post` holds of it, and under `safe` it is one. So the
    two halves of a specification are proved in one pass over the code, although only the second needs
    the condition. The rules follow the ways in which code is put together. -/

namespace Schemes
variable {γ δ α : Type} {safe safe' : Prop} {P : γ → Prop} {Q : δ → Prop}

/-- What a result must be, and when there is one. -/
structure Meets (r : Except Stop γ) (safe : Prop) (post : γ → Prop) : Prop where
  sound : ∀ a, r = .ok a → post a
  total : safe → ∃ a, r = .ok a

theorem Meets.ok {a : γ} (h : P a) : Meets (.ok a) safe P :=
  ⟨fun _ heq => Except.ok.inj heq ▸ h, fun _ => ⟨a, rfl⟩⟩

theorem Meets.imp {r : Except Stop γ} {P' : γ → Prop} (h : Meets r safe P) (hsafe : safe' → safe)
    (hpost : ∀ a, P a → P' a) : Meets r safe' P' :=
  ⟨fun a heq => hpost a (h.sound a heq), fun hs => h.total (hsafe hs)⟩

/-- Under the condition there is a result, and it is as it must be. -/
theorem Meets.run {r : Except Stop γ} (h : Meets r safe P) (hs : safe) : ∃ a, r = .ok a ∧ P a := by
  obtain ⟨a, heq⟩ := h.total hs
  exact ⟨a, heq, h.sound a heq⟩

theorem Meets.bind {r : Except Stop γ} {k : γ → Except Stop δ} (h : Meets r safe P)
    (hk : ∀ a, P a → Meets (k a) safe Q) : Meets (r >>= k) safe Q := by
  refine ⟨fun b heq => ?_, fun hs => ?_⟩
  · obtain ⟨a, ha, hb⟩ := bind_ok heq
    exact (hk a (h.sound a ha)).sound b hb
  · obtain ⟨a, rfl, ha⟩ := h.run hs
    exact (hk a ha).total hs

theorem Meets.map {r : Except Stop γ} {m : γ → δ} (h : Meets r safe P) (hm : ∀ a, P a → Q (m a)) :
    Meets (m <$> r) safe Q := by
  cases r with
  | ok a => exact .ok (hm a (h.sound a rfl))
  | error e =>
    refine ⟨fun b heq => (by cases heq), fun hs => ?_⟩
    obtain ⟨a, heq⟩ := h.total hs
    cases heq

/-- A fold keeps what its steps keep. -/
theorem Meets.foldlM {f : γ → α → Except Stop γ} (hf : ∀ b x, P b → Meets (f b x) safe P) :
    ∀ (l : List α) {b : γ}, P b → Meets (l.foldlM f b) safe P
  | [], _, hb => .ok hb
  | x :: l, b, hb => by
      rw [List.foldlM_cons]
      exact (hf b x hb).bind fun b' hb' => Meets.foldlM hf l hb'

end Schemes
