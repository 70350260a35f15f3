import SystemsLabs.Schemes.Text

/-! @scheme paths | structure:components between slashes | used by:file servers

    Slashes cut a file name into components. `walk` follows them from a directory: an empty component
    and `.` stay, `..` goes up, any other name goes down; going up from where the walk began is
    leaving (`none`). Symbolic links are not followed. -/

namespace Schemes
variable {s w : List UInt8} {dirs : List (List UInt8)} {cs ds : List (List UInt8)}

def components : List UInt8 → List (List UInt8)
  | [] => [[]]
  | c :: s => if c = 47 then [] :: components s else (components s).modifyHead (c :: ·)

def dot : List UInt8 := [46]

def dotdot : List UInt8 := [46, 46]

/-- The directories below the start, the last one first. -/
def walk : List (List UInt8) → List (List UInt8) → Option (List (List UInt8))
  | dirs, [] => some dirs
  | dirs, c :: cs =>
    if c = [] ∨ c = dot then walk dirs cs
    else if c = dotdot then dirs.tail?.bind fun dirs => walk dirs cs
    else walk (c :: dirs) cs

theorem components_slash : components (47 :: s) = [] :: components s := if_pos rfl

theorem components_cases (s : List UInt8) : ∃ f fs, components s = f :: fs := by
  induction s with
  | nil => exact ⟨[], [], rfl⟩
  | cons c s ih =>
    obtain ⟨f, fs, hf⟩ := ih
    rw [components, hf]
    split
    · exact ⟨[], f :: fs, rfl⟩
    · exact ⟨c :: f, fs, rfl⟩

theorem components_append (s t : List UInt8) :
    components (s ++ 47 :: t) = components s ++ components t := by
  induction s with
  | nil => exact components_slash
  | cons c s ih =>
    obtain ⟨f, fs, hf⟩ := components_cases s
    rw [List.cons_append, components, components, ih, hf]
    split <;> rfl

theorem components_of_not_mem (hs : 47 ∉ s) : components s = [s] := by
  induction s with
  | nil => rfl
  | cons c s ih =>
    rw [List.mem_cons, not_or] at hs
    rw [components, if_neg (Ne.symm hs.1), ih hs.2]
    rfl

theorem components_first : ∀ {s f : List UInt8} {fs : List (List UInt8)}, components s = f :: fs →
    fs ≠ [] → ∃ t, s = f ++ 47 :: t
  | [], _, _, h, hne => by
      obtain ⟨-, rfl⟩ := List.cons.inj h
      exact absurd rfl hne
  | c :: s, f, fs, h, hne => by
      by_cases hc : c = 47
      · subst hc
        rw [components_slash] at h
        obtain ⟨rfl, -⟩ := List.cons.inj h
        exact ⟨s, rfl⟩
      · obtain ⟨g, gs, hg⟩ := components_cases s
        rw [components, if_neg hc, hg] at h
        obtain ⟨rfl, rfl⟩ := List.cons.inj h
        obtain ⟨t, rfl⟩ := components_first hg hne
        exact ⟨t, rfl⟩

/-- An inner component has slashes on both sides. -/
theorem components_inner : ∀ {s : List UInt8}, w ∈ (components s).tail.dropLast →
    47 :: (w ++ [47]) <:+: s
  | [], h => by cases h
  | c :: s, h => by
      obtain ⟨f, fs, hf⟩ := components_cases s
      by_cases hc : c = 47
      · subst hc
        rw [components_slash, List.tail_cons, hf] at h
        cases fs with
        | nil => cases h
        | cons g gs =>
          rw [List.dropLast_cons_cons] at h
          rcases List.mem_cons.mp h with rfl | h
          · obtain ⟨t, rfl⟩ := components_first hf (List.cons_ne_nil _ _)
            exact ⟨[], t, by simp⟩
          · have hin : w ∈ (components s).tail.dropLast := by rwa [hf]
            exact (components_inner hin).trans (List.suffix_cons _ _).isInfix
      · rw [components, if_neg hc, hf] at h
        have hin : w ∈ (components s).tail.dropLast := by rwa [hf]
        exact (components_inner hin).trans (List.suffix_cons _ _).isInfix

theorem walk_append : walk dirs (cs ++ ds) = (walk dirs cs).bind fun dirs => walk dirs ds := by
  induction cs generalizing dirs with
  | nil => rfl
  | cons c cs ih =>
    rw [List.cons_append, walk, walk]
    split
    · exact ih
    · split
      · cases dirs.tail? with
        | none => rfl
        | some dirs => exact ih
      · exact ih

/-- Without `..` a walk does not leave. -/
theorem walk_stays (h : dotdot ∉ cs) : (walk dirs cs).isSome := by
  induction cs generalizing dirs with
  | nil => rfl
  | cons c cs ih =>
    rw [List.mem_cons, not_or] at h
    rw [walk, if_neg (Ne.symm h.1)]
    split
    · exact ih h.2
    · exact ih h.2

end Schemes
