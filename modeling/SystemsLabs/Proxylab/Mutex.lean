import SystemsLabs.Schemes.Transition
import Mathlib.Logic.Function.Basic

/-! @lab proxylab | file:proxy.c (doit) | scheme:transition | main result:when the lock excludes

    The mutex of `doit`, step by step, for any number of threads. Every connection runs
    `pthread_mutex_init` on the one global mutex, and initialising sets it to unlocked whoever holds
    it. So a thread that starts while another is inside a critical section opens the lock for itself
    (`init_breaks`); as long as no thread initialises at such a moment, the sections exclude each
    other (`sections_exclude`). -/

namespace Labs.Mutex
open Schemes

/-- Where a thread is in `doit`. `inLookup` and `inInsert` are the critical sections. -/
inductive Pc where
  | start
  | ready
  | inLookup
  | transfer
  | inInsert
  | finished
  deriving DecidableEq, Repr

/-- Between a lock and the next unlock. -/
def Pc.inside (c : Pc) : Prop := c = .inLookup ∨ c = .inInsert

instance (c : Pc) : Decidable c.inside := inferInstanceAs (Decidable (_ ∨ _))

structure State (T : Type) where
  locked : Bool
  pc : T → Pc

/-- `init` and `initFail`: `pthread_mutex_init` returns zero or not. `unlockHit`: the lookup found
    the URI. `giveUp`: no connection to the origin, or nothing to insert. -/
inductive Act where
  | init
  | initFail
  | lock
  | unlockHit
  | unlockMiss
  | giveUp
  | relock
  | unlock
  deriving DecidableEq, Repr

section Threads
variable {T : Type} [DecidableEq T]

/-- Thread `t` goes on to `c`, leaving the mutex as given. -/
def State.goto (s : State T) (t : T) (c : Pc) (locked : Bool) : State T :=
  ⟨locked, Function.update s.pc t c⟩

/-- One step of one thread. A lock waits for the mutex to be unlocked. -/
def doitStep (s : State T) : T × Act → State T → Prop
  | (t, .init), s' => s.pc t = .start ∧ s' = s.goto t .ready false
  | (t, .initFail), s' => s.pc t = .start ∧ s' = s.goto t .finished s.locked
  | (t, .lock), s' => s.pc t = .ready ∧ s.locked = false ∧ s' = s.goto t .inLookup true
  | (t, .unlockHit), s' => s.pc t = .inLookup ∧ s' = s.goto t .finished false
  | (t, .unlockMiss), s' => s.pc t = .inLookup ∧ s' = s.goto t .transfer false
  | (t, .giveUp), s' => s.pc t = .transfer ∧ s' = s.goto t .finished s.locked
  | (t, .relock), s' => s.pc t = .transfer ∧ s.locked = false ∧ s' = s.goto t .inInsert true
  | (t, .unlock), s' => s.pc t = .inInsert ∧ s' = s.goto t .finished false

def doit : System (State T) (T × Act) where
  init s := s = ⟨false, fun _ => .start⟩
  step := doitStep

/-- No two threads are inside the sections at the same time. -/
def Exclusive (s : State T) : Prop :=
  ∀ t t', (s.pc t).inside → (s.pc t').inside → t = t'

/-- The mutex is initialised only while no thread is inside a section. -/
def QuietInit (s : State T) (a : T × Act) : Prop :=
  a.2 = .init → ∀ t, ¬ (s.pc t).inside

theorem goto_inside {s : State T} {t t' : T} {c : Pc} {locked : Bool}
    (h : ((s.goto t c locked).pc t').inside) : (t' = t ∧ c.inside) ∨ (t' ≠ t ∧ (s.pc t').inside) := by
  rcases eq_or_ne t' t with rfl | hne
  · exact Or.inl ⟨rfl, by simpa [State.goto] using h⟩
  · exact Or.inr ⟨hne, by simpa [State.goto, hne] using h⟩

/-- Who is inside a section holds the mutex. -/
structure Held (s : State T) : Prop where
  held : ∀ t, (s.pc t).inside → s.locked = true
  exclusive : Exclusive s

section Step
variable {s s' : State T} {t : T} {c : Pc}

/-- A thread outside the sections moves on outside them. -/
theorem Held.outside (h : Held s) (hc : ¬ c.inside) : Held (s.goto t c s.locked) := by
  constructor
  · rintro t' hin
    rcases goto_inside hin with ⟨-, hc'⟩ | ⟨-, hin⟩
    · exact absurd hc' hc
    · exact h.held t' hin
  · rintro t₁ t₂ h₁ h₂
    rcases goto_inside h₁ with ⟨-, hc'⟩ | ⟨-, h₁⟩
    · exact absurd hc' hc
    · rcases goto_inside h₂ with ⟨-, hc'⟩ | ⟨-, h₂⟩
      · exact absurd hc' hc
      · exact h.exclusive t₁ t₂ h₁ h₂

/-- When nobody else is inside, the mutex may be released. -/
theorem held_release (hout : ∀ t', t' ≠ t → ¬ (s.pc t').inside) (hc : ¬ c.inside) :
    Held (s.goto t c false) := by
  have hnone : ∀ t', ¬ ((s.goto t c false).pc t').inside := by
    rintro t' hin
    rcases goto_inside hin with ⟨-, hc'⟩ | ⟨hne, hin⟩
    · exact hc hc'
    · exact hout t' hne hin
  exact ⟨fun t' hin => absurd hin (hnone t'), fun t₁ _ h₁ _ => absurd h₁ (hnone t₁)⟩

/-- A lock enters a section alone. -/
theorem Held.acquire (h : Held s) (hfree : s.locked = false) : Held (s.goto t c true) := by
  have hnone : ∀ t', ¬ (s.pc t').inside := by
    rintro t' hin
    rw [h.held t' hin] at hfree
    cases hfree
  refine ⟨fun _ _ => rfl, fun t₁ t₂ h₁ h₂ => ?_⟩
  rcases goto_inside h₁ with ⟨rfl, -⟩ | ⟨-, h₁⟩
  · rcases goto_inside h₂ with ⟨rfl, -⟩ | ⟨-, h₂⟩
    · rfl
    · exact absurd h₂ (hnone t₂)
  · exact absurd h₁ (hnone t₁)

omit [DecidableEq T] in
theorem Held.alone (h : Held s) (hin : (s.pc t).inside) :
    ∀ t', t' ≠ t → ¬ (s.pc t').inside :=
  fun t' hne hin' => hne (h.exclusive t' t hin' hin)

theorem held_step {a : T × Act} (h : Held s) (hquiet : QuietInit s a) (hstep : doitStep s a s') :
    Held s' := by
  obtain ⟨t, a⟩ := a
  cases a with
  | init =>
    obtain ⟨-, rfl⟩ := hstep
    exact held_release (fun t' _ => hquiet rfl t') (by decide)
  | initFail => obtain ⟨-, rfl⟩ := hstep; exact h.outside (by decide)
  | lock => obtain ⟨-, hfree, rfl⟩ := hstep; exact h.acquire hfree
  | unlockHit =>
    obtain ⟨hpc, rfl⟩ := hstep
    exact held_release (h.alone (Or.inl hpc)) (by decide)
  | unlockMiss =>
    obtain ⟨hpc, rfl⟩ := hstep
    exact held_release (h.alone (Or.inl hpc)) (by decide)
  | giveUp => obtain ⟨-, rfl⟩ := hstep; exact h.outside (by decide)
  | relock => obtain ⟨-, hfree, rfl⟩ := hstep; exact h.acquire hfree
  | unlock =>
    obtain ⟨hpc, rfl⟩ := hstep
    exact held_release (h.alone (Or.inr hpc)) (by decide)

/-- In every run in which the mutex is initialised only while no thread is inside a section, the
    sections exclude each other. -/
theorem sections_exclude (h : (doit.restrict QuietInit).Reachable s) : Exclusive s := by
  have hheld : Held s := by
    refine System.reachable_of_step (P := Held) ?_ ?_ h
    · rintro s rfl
      have hout : ∀ t : T, ¬ Pc.start.inside := fun _ => by decide
      exact ⟨fun t hin => absurd hin (hout t), fun t _ hin _ => absurd hin (hout t)⟩
    · rintro s a s' hinv ⟨hquiet, hstep⟩
      exact held_step hinv hquiet hstep
  exact hheld.exclusive

end Step

/-- Both threads initialise before one of them locks. -/
theorem sections_exclude_two : ∃ s : State Bool,
    s.pc false = .ready ∧ s.pc true = .inLookup ∧ Exclusive s :=
  ⟨_, rfl, rfl, sections_exclude ⟨_, [(false, .init), (true, .init), (true, .lock)], rfl,
    .cons ⟨fun _ => by decide, rfl, rfl⟩ <|
    .cons ⟨fun _ => by decide, rfl, rfl⟩ <|
    .single ⟨nofun, rfl, rfl, rfl⟩⟩⟩

/-- An initialisation while another thread is inside a section breaks the exclusion two steps
    later, whatever the state. -/
theorem init_breaks {s : State T} {t t' : T} (hstart : s.pc t = .start)
    (hin : (s.pc t').inside) :
    ∃ s', doit.Run s [(t, .init), (t, .lock)] s' ∧ ¬ Exclusive s' := by
  have hne : t ≠ t' := by
    rintro rfl
    rw [hstart] at hin
    revert hin
    decide
  have hself : (s.goto t .ready false).pc t = .ready := by simp [State.goto]
  refine ⟨_, .cons ⟨hstart, rfl⟩ (.single ⟨hself, rfl, rfl⟩), fun hex => hne (hex t t' ?_ ?_)⟩
  · simp [State.goto, Pc.inside]
  · simpa [State.goto, hne.symm] using hin

/-- Two threads in the lookup section at once: the second initialises while the first is inside. -/
theorem two_inside : ∃ s : State Bool, doit.Reachable s ∧
    s.pc false = .inLookup ∧ s.pc true = .inLookup ∧ ¬ Exclusive s := by
  have hrun : doit.Run (⟨false, fun _ => .start⟩ : State Bool)
      [(false, .init), (false, .lock), (true, .init), (true, .lock)] _ :=
    .cons ⟨rfl, rfl⟩ <| .cons ⟨rfl, rfl, rfl⟩ <| .cons ⟨rfl, rfl⟩ <| .single ⟨rfl, rfl, rfl⟩
  refine ⟨_, ⟨_, _, rfl, hrun⟩, rfl, rfl, fun hex => ?_⟩
  cases hex false true (Or.inl rfl) (Or.inl rfl)

end Threads

end Labs.Mutex
