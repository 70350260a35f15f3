import Mathlib.Tactic.Common

/-! @scheme transition | structure:labelled transition system | used by:threads, caches, shells

    A system has initial states and labelled steps. An invariant that holds initially and is kept by
    every step holds in every reachable state (`reachable_of_step`). A run in which every step meets a
    condition on the state before it is a run of the restricted system, so that "in every run whose
    steps all meet `C`" is reachability in `S.restrict C`. -/

namespace Schemes

/-- Labelled transition system over states `σ` and actions `α`. -/
structure System (σ α : Type*) where
  init : σ → Prop
  step : σ → α → σ → Prop

namespace System
variable {σ α : Type*} {S : System σ α} {C : σ → α → Prop} {P : σ → Prop} {s s' : σ} {a : α}

/-- Runs, by the list of actions taken. -/
inductive Run (S : System σ α) : σ → List α → σ → Prop where
  | nil (s : σ) : Run S s [] s
  | cons {s s' s'' : σ} {a : α} {as : List α} : S.step s a s' → Run S s' as s'' →
      Run S s (a :: as) s''

/-- A state some run from an initial state ends in. -/
def Reachable (S : System σ α) (s : σ) : Prop := ∃ s₀ as, S.init s₀ ∧ S.Run s₀ as s

/-- The steps that meet `C` only. -/
def restrict (S : System σ α) (C : σ → α → Prop) : System σ α where
  init := S.init
  step s a s' := C s a ∧ S.step s a s'

theorem Run.append {s₁ s₂ s₃ : σ} {as bs : List α} (h₁ : S.Run s₁ as s₂) (h₂ : S.Run s₂ bs s₃) :
    S.Run s₁ (as ++ bs) s₃ := by
  induction h₁ with
  | nil s => exact h₂
  | cons hstep _ ih => exact .cons hstep (ih h₂)

theorem Run.single (h : S.step s a s') : S.Run s [a] s' := .cons h (.nil s')

/-- What every step keeps, every run keeps. -/
theorem Run.preserves {as : List α} (hrun : S.Run s as s')
    (hstep : ∀ {s a s'}, P s → S.step s a s' → P s') (h : P s) : P s' := by
  induction hrun with
  | nil s => exact h
  | cons hs _ ih => exact ih (hstep h hs)

theorem reachable_init (h : S.init s) : S.Reachable s := ⟨s, [], h, .nil s⟩

theorem Reachable.run {as : List α} (h : S.Reachable s) (hrun : S.Run s as s') :
    S.Reachable s' := by
  obtain ⟨s₀, bs, h₀, hb⟩ := h
  exact ⟨s₀, bs ++ as, h₀, hb.append hrun⟩

theorem Reachable.step (h : S.Reachable s) (hs : S.step s a s') : S.Reachable s' :=
  h.run (.single hs)

theorem Reachable.of_restrict (h : (S.restrict C).Reachable s) : S.Reachable s := by
  obtain ⟨s₀, as, h₀, hrun⟩ := h
  refine ⟨s₀, as, h₀, ?_⟩
  clear h₀
  induction hrun with
  | nil s => exact .nil s
  | cons hs _ ih => exact .cons hs.2 ih

/-- Invariant rule. -/
theorem reachable_of_step (hinit : ∀ {s}, S.init s → P s)
    (hstep : ∀ {s a s'}, P s → S.step s a s' → P s') (h : S.Reachable s) : P s := by
  obtain ⟨s₀, as, h₀, hrun⟩ := h
  exact hrun.preserves hstep (hinit h₀)

end System

end Schemes
