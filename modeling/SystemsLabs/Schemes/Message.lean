import Mathlib.Data.Int.Notation
import SystemsLabs.Schemes.Text

/-! @scheme message | structure:header lines, blank line, body of a declared length | used by:servers

    A message has lines that end with CR and LF, an empty line, and a body. The lines of a message can
    be read off its text, and so can its end if one line declares how long the body is: no complete
    message is a proper prefix of another one. -/

namespace Schemes

def crlf : List UInt8 := [13, 10]

def headText (lines : List (List UInt8)) : List UInt8 := (lines.map (· ++ crlf)).flatten ++ crlf

/-- A line of a head. -/
def HeadLine (l : List UInt8) : Prop := l ≠ [] ∧ 13 ∉ l

instance (l : List UInt8) : Decidable (HeadLine l) := inferInstanceAs (Decidable (_ ∧ _))

/-- A head and a body of the length that the head declares, once. -/
def Complete (declares : List UInt8 → Option ℤ) (t : List UInt8) : Prop :=
  ∃ lines body, t = headText lines ++ body ∧ (∀ l ∈ lines, HeadLine l) ∧
    lines.filterMap declares = [(body.length : ℤ)]

variable {declares : List UInt8 → Option ℤ} {a b : List UInt8}

theorem headText_cons (l : List UInt8) (lines : List (List UInt8)) :
    headText (l :: lines) ++ a = l ++ 13 :: (10 :: (headText lines ++ a)) := by
  simp [headText, crlf]

theorem headText_ne {l : List UInt8} (hl : HeadLine l) (t : List UInt8) :
    l ++ t ≠ headText [] ++ a := by
  obtain ⟨c, l, rfl⟩ := List.exists_cons_of_ne_nil hl.1
  intro h
  obtain ⟨rfl, -⟩ := List.cons.inj h
  exact hl.2 List.mem_cons_self

/-- The lines and the body are determined by the text. -/
theorem headText_inj : ∀ {ls ks : List (List UInt8)}, (∀ l ∈ ls, HeadLine l) →
    (∀ k ∈ ks, HeadLine k) → headText ls ++ a = headText ks ++ b → ls = ks ∧ a = b
  | [], [], _, _, h => ⟨rfl, List.append_cancel_left h⟩
  | [], k :: ks, _, hks, h => by
      rw [headText_cons] at h
      exact absurd h.symm (headText_ne (hks k List.mem_cons_self) _)
  | l :: ls, [], hls, _, h => by
      rw [headText_cons] at h
      exact absurd h (headText_ne (hls l List.mem_cons_self) _)
  | l :: ls, k :: ks, hls, hks, h => by
      obtain ⟨hl, hls'⟩ := List.forall_mem_cons.mp hls
      obtain ⟨hk, hks'⟩ := List.forall_mem_cons.mp hks
      rw [headText_cons, headText_cons] at h
      have hlk : l = k := by rw [← takeWhile_ne hl.2, h, takeWhile_ne hk.2]
      subst hlk
      have hrest : headText ls ++ a = headText ks ++ b :=
        (List.cons.inj (List.cons.inj (List.append_cancel_left h)).2).2
      obtain ⟨hsame, hab⟩ := headText_inj hls' hks' hrest
      exact ⟨congrArg _ hsame, hab⟩

/-- Whether a text with a given head is complete. -/
theorem complete_iff {lines : List (List UInt8)} (hlines : ∀ l ∈ lines, HeadLine l) :
    Complete declares (headText lines ++ a) ↔ lines.filterMap declares = [(a.length : ℤ)] := by
  constructor
  · rintro ⟨ls, body, heq, hls, hlen⟩
    obtain ⟨rfl, rfl⟩ := headText_inj hlines hls heq
    exact hlen
  · exact fun hlen => ⟨lines, a, rfl, hlines, hlen⟩

end Schemes
