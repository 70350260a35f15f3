import SystemsLabs.Schemes.Text

/-! @scheme words | structure:fields of a text between white space | used by:command lines

    White space cuts a text into fields; those that are not empty are its words. A text is `Closed`
    if the last field is empty: it ends with white space, or there is nothing in it. -/

namespace Schemes
variable {c : UInt8} {s w : List UInt8}

/-- What stands between white space, empty fields included. -/
def fields : List UInt8 → List (List UInt8)
  | [] => [[]]
  | c :: s => if isspace c then [] :: fields s else (fields s).modifyHead (c :: ·)

def words (s : List UInt8) : List (List UInt8) := (fields s).filter (· ≠ [])

/-- White space at the end, or nothing at all. -/
def Closed (s : List UInt8) : Prop := ∀ c ∈ s.getLast?, isspace c = true

instance (s : List UInt8) : Decidable (Closed s) := inferInstanceAs (Decidable (∀ c ∈ _, _))

theorem fields_eq_splitOnP (s : List UInt8) : fields s = s.splitOnP isspace := by
  induction s with
  | nil => rfl
  | cons c s ih => rw [fields, List.splitOnP_cons_eq_if_modifyHead, ih]

theorem fields_space (hc : isspace c = true) : fields (c :: s) = [] :: fields s := if_pos hc

theorem fields_ne_nil : fields s ≠ [] := by
  rw [fields_eq_splitOnP]
  exact List.splitOnP_ne_nil isspace s

theorem fields_cases (s : List UInt8) : ∃ f fs, fields s = f :: fs :=
  List.exists_cons_of_ne_nil fields_ne_nil

theorem fields_word {f : List UInt8} {fs : List (List UInt8)} (hc : ¬ isspace c = true)
    (h : fields s = f :: fs) : fields (c :: s) = (c :: f) :: fs := by
  rw [fields, if_neg hc, h]
  rfl

/-- Words are not empty and hold no white space. -/
theorem mem_fields : ∀ {s w : List UInt8}, w ∈ fields s → ∀ c ∈ w, c ∈ s ∧ isspace c = false
  | [], _, hw, c, hc => by
      rw [List.mem_singleton.mp hw] at hc
      cases hc
  | d :: s, _, hw, c, hc => by
      by_cases hd : isspace d = true
      · rw [fields_space hd] at hw
        rcases List.mem_cons.mp hw with rfl | hw
        · cases hc
        · obtain ⟨hin, hspace⟩ := mem_fields hw c hc
          exact ⟨List.mem_cons_of_mem d hin, hspace⟩
      · obtain ⟨f, fs, hf⟩ := fields_cases s
        rw [fields_word hd hf] at hw
        rcases List.mem_cons.mp hw with rfl | hw
        · rcases List.mem_cons.mp hc with rfl | hc
          · exact ⟨List.mem_cons_self, by simpa using hd⟩
          · obtain ⟨hin, hspace⟩ := mem_fields (hf ▸ List.mem_cons_self) c hc
            exact ⟨List.mem_cons_of_mem d hin, hspace⟩
        · obtain ⟨hin, hspace⟩ := mem_fields (hf ▸ List.mem_cons_of_mem f hw) c hc
          exact ⟨List.mem_cons_of_mem d hin, hspace⟩

theorem mem_words (hw : w ∈ words s) : w ≠ [] ∧ ∀ c ∈ w, c ∈ s ∧ isspace c = false := by
  obtain ⟨hmem, hne⟩ := List.mem_filter.mp hw
  exact ⟨by simpa using hne, mem_fields hmem⟩

/-- The last field tells whether the text is closed. -/
theorem closed_iff : ∀ s : List UInt8, Closed s ↔ (fields s).getLast? = some []
  | [] => by simp [Closed, fields]
  | c :: s => by
      have hlast := closed_iff s
      obtain ⟨f, fs, hf⟩ := fields_cases s
      by_cases hc : isspace c = true
      · rw [fields_space hc, hf, List.getLast?_cons_cons, ← hf, ← hlast]
        cases s with
        | nil => simp [Closed, hc]
        | cons d s => simp only [Closed, List.getLast?_cons_cons]
      · rw [fields_word hc hf]
        cases s with
        | nil =>
          obtain ⟨rfl, rfl⟩ := List.cons.inj hf
          simp [Closed, hc]
        | cons d s =>
          rw [hf] at hlast
          cases fs with
          | nil =>
            have hopen : f ≠ [] := by
              rintro rfl
              by_cases hd : isspace d = true
              · obtain ⟨f', fs', hf'⟩ := fields_cases s
                rw [fields_space hd, hf'] at hf
                cases hf
              · obtain ⟨f', fs', hf'⟩ := fields_cases s
                rw [fields_word hd hf'] at hf
                cases hf
            simp only [Closed, List.getLast?_cons_cons]
            simpa [Closed, hopen] using hlast
          | cons g gs => simpa only [Closed, List.getLast?_cons_cons] using hlast

end Schemes
