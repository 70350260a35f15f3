import Mathlib.Data.Nat.Find
import Mathlib.Logic.Function.Basic
import Mathlib.Tactic.Common

/-! @scheme descriptors | structure:table of open descriptors | used by:programs that redirect

    A table says what each descriptor refers to; only finitely many are open. `open` takes the lowest
    closed one, `dup2` makes a descriptor refer to what another one does, `close` closes it. To open,
    duplicate onto a target and close moves what was opened to the target and leaves every other
    descriptor as it was; a target that was itself the lowest closed one is closed again (`moved_get`). -/

namespace Schemes

structure Descriptors (α : Type*) where
  get : ℕ → Option α
  bounded : ∃ n, ∀ k, n ≤ k → get k = none

namespace Descriptors
variable {α : Type*} {t : Descriptors α} {x : α} {k : ℕ}

@[ext] theorem ext {t t' : Descriptors α} (h : ∀ k, t.get k = t'.get k) : t = t' := by
  cases t
  cases t'
  congr 1
  exact funext h

def assign (t : Descriptors α) (fd : ℕ) (d : Option α) : Descriptors α where
  get := Function.update t.get fd d
  bounded := by
    obtain ⟨n, hn⟩ := t.bounded
    refine ⟨max n (fd + 1), fun k hk => ?_⟩
    rw [Function.update_of_ne (by omega)]
    exact hn k (by omega)

theorem exists_closed (t : Descriptors α) : ∃ k, (t.get k).isNone = true := by
  obtain ⟨n, hn⟩ := t.bounded
  exact ⟨n, by rw [hn n (Nat.le_refl n)]; rfl⟩

/-- The descriptor that `open` returns. -/
def lowest (t : Descriptors α) : ℕ := Nat.find t.exists_closed

/-- `open` -/
def install (t : Descriptors α) (x : α) : Descriptors α := t.assign t.lowest (some x)

def dup2 (t : Descriptors α) (old new : ℕ) : Descriptors α :=
  match t.get old with
  | some x => t.assign new (some x)
  | none => t

def close (t : Descriptors α) (fd : ℕ) : Descriptors α := t.assign fd none

@[simp] theorem get_assign (t : Descriptors α) (fd : ℕ) (d : Option α) (k : ℕ) :
    (t.assign fd d).get k = if k = fd then d else t.get k := Function.update_apply ..

theorem get_lowest (t : Descriptors α) : t.get t.lowest = none :=
  Option.isNone_iff_eq_none.mp (Nat.find_spec t.exists_closed)

theorem lowest_eq_iff : t.lowest = k ↔ t.get k = none ∧ ∀ j < k, (t.get j).isSome := by
  rw [lowest, Nat.find_eq_iff]
  simp [Option.isSome_iff_ne_none]

/-- Closed at once, what was opened leaves no trace. -/
theorem close_install (t : Descriptors α) (x : α) : (t.install x).close t.lowest = t := by
  ext1 k
  rw [close, install, get_assign, get_assign]
  by_cases hk : k = t.lowest
  · rw [if_pos hk, hk, t.get_lowest]
  · rw [if_neg hk, if_neg hk]

/-- Open, duplicate and close. -/
def moved (t : Descriptors α) (x : α) (target : ℕ) : Descriptors α :=
  ((t.install x).dup2 t.lowest target).close t.lowest

theorem moved_get (t : Descriptors α) (x : α) (target k : ℕ) : (t.moved x target).get k =
    if k = target then (if t.lowest = target then none else some x) else t.get k := by
  have hnew : (t.install x).get t.lowest = some x := by rw [install, get_assign, if_pos rfl]
  rw [moved, dup2, hnew, close, get_assign, get_assign, install, get_assign]
  by_cases hk : k = t.lowest
  · rw [if_pos hk]
    by_cases htarget : k = target
    · rw [if_pos htarget, if_pos (hk.symm.trans htarget)]
    · rw [if_neg htarget, hk, t.get_lowest]
  · rw [if_neg hk]
    by_cases htarget : k = target
    · rw [if_pos htarget, if_pos htarget, if_neg fun heq => hk (htarget.trans heq.symm)]
    · rw [if_neg htarget, if_neg htarget, if_neg hk]

end Descriptors

end Schemes
