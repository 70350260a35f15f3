import Mathlib.Data.List.Sort
import Mathlib.Order.Bounds.Defs

/-! @scheme smallest | structure:the k smallest of a list, in order | used by:samplers

    `smallest k l` are the first `k` of `l` in order. It is any sorted list of length `k` that makes up
    `l` together with others that are not below it (`smallest_eq`). A new element goes in between as
    long as there are fewer than `k`; later it drives out the last one, or it stays out. -/

namespace Schemes
open List
variable {α : Type*} [LinearOrder α] {k : ℕ} {l best rest : List α} {v last : α}

def smallest (k : ℕ) (l : List α) : List α := (l.insertionSort (· ≤ ·)).take k

theorem smallest_length (k : ℕ) (l : List α) : (smallest k l).length = min k l.length := by
  rw [smallest, length_take, length_insertionSort]

theorem smallest_eq (hperm : l ~ best ++ rest) (hsorted : best.Pairwise (· ≤ ·))
    (hle : ∀ a ∈ best, ∀ b ∈ rest, a ≤ b) : smallest best.length l = best := by
  have hrest := pairwise_insertionSort (· ≤ ·) rest
  have hall : (best ++ rest.insertionSort (· ≤ ·)).Pairwise (· ≤ ·) :=
    pairwise_append.mpr ⟨hsorted, hrest, fun a ha b hb => hle a ha b ((mem_insertionSort _).mp hb)⟩
  have hsame : l.insertionSort (· ≤ ·) = best ++ rest.insertionSort (· ≤ ·) := by
    refine Perm.eq_of_pairwise' (pairwise_insertionSort (· ≤ ·) l) hall ?_
    exact ((perm_insertionSort _ l).trans hperm).trans
      ((perm_insertionSort _ rest).symm.append_left best)
  rw [smallest, hsame, take_left' rfl]

theorem smallest_sorted (k : ℕ) (l : List α) : (smallest k l).Pairwise (· ≤ ·) :=
  (pairwise_insertionSort (· ≤ ·) l).sublist (take_sublist k _)

/-- The others. -/
theorem smallest_split (k : ℕ) (l : List α) :
    ∃ rest, l ~ smallest k l ++ rest ∧ ∀ a ∈ smallest k l, ∀ b ∈ rest, a ≤ b := by
  refine ⟨(l.insertionSort (· ≤ ·)).drop k, ?_, ?_⟩
  · rw [smallest, take_append_drop]
    exact (perm_insertionSort _ l).symm
  · have hall := pairwise_insertionSort (· ≤ ·) l
    rw [← take_append_drop k (l.insertionSort (· ≤ ·))] at hall
    exact (pairwise_append.mp hall).2.2

theorem smallest_short (h : l.length ≤ k) : smallest k l ~ l := by
  rw [smallest, take_of_length_le (by rwa [length_insertionSort])]
  exact perm_insertionSort _ l

/-- The first of them is the least of all. -/
theorem smallest_least (h : (smallest k l).head? = some v) : IsLeast {a | a ∈ l} v := by
  obtain ⟨best, hbest⟩ := head?_eq_some_iff.mp h
  obtain ⟨rest, hperm, hle⟩ := smallest_split k l
  have hsorted := smallest_sorted k l
  rw [hbest] at hperm hle hsorted
  refine ⟨hperm.mem_iff.mpr (by simp), fun a ha => ?_⟩
  rcases mem_append.mp (hperm.mem_iff.mp ha) with ha | ha
  · rcases mem_cons.mp ha with rfl | ha
    · exact le_refl a
    · exact (pairwise_cons.mp hsorted).1 a ha
  · exact hle v mem_cons_self a ha

/-- While there is room, an element goes in. -/
theorem smallest_room (h : l.length < k) :
    smallest k (l ++ [v]) = (smallest k l).orderedInsert (· ≤ ·) v := by
  have hperm : l ++ [v] ~ (smallest k l).orderedInsert (· ≤ ·) v ++ [] := by
    rw [append_nil]
    refine (perm_append_singleton v l).trans ?_
    exact ((smallest_short (Nat.le_of_lt h)).symm.cons v).trans (perm_orderedInsert _ v _).symm
  have heq := smallest_eq hperm ((smallest_sorted k l).orderedInsert v _) (by simp)
  rw [orderedInsert_length, smallest_length, Nat.min_eq_right (Nat.le_of_lt h)] at heq
  rw [← heq, smallest, smallest, take_of_length_le (by simpa using Nat.succ_le_of_lt h),
    take_of_length_le (by simp)]

/-- An element below the last one drives it out. -/
theorem smallest_enter (h : smallest k l = best ++ [last]) (hv : v < last)
    (hk : best.length + 1 = k) : smallest k (l ++ [v]) = best.orderedInsert (· ≤ ·) v := by
  obtain ⟨rest, hperm, hle⟩ := smallest_split k l
  have hsorted := smallest_sorted k l
  rw [h] at hperm hle hsorted
  obtain ⟨hbest, -, hlast⟩ := pairwise_append.mp hsorted
  have hperm' : l ++ [v] ~ best.orderedInsert (· ≤ ·) v ++ last :: rest := by
    calc l ++ [v] ~ v :: l := perm_append_singleton v l
      _ ~ v :: (best ++ [last] ++ rest) := hperm.cons v
      _ = (v :: best) ++ last :: rest := by simp
      _ ~ best.orderedInsert (· ≤ ·) v ++ last :: rest :=
        (perm_orderedInsert _ v best).symm.append_right _
  have heq := smallest_eq hperm' (hbest.orderedInsert v _) ?_
  · rwa [orderedInsert_length, hk] at heq
  · intro a ha b hb
    have habest : a ≤ last := by
      rcases (mem_orderedInsert _).mp ha with rfl | ha
      · exact le_of_lt hv
      · exact hlast a ha last (mem_singleton_self last)
    rcases mem_cons.mp hb with rfl | hb
    · exact habest
    · exact habest.trans (hle last (mem_append_right _ (mem_singleton_self last)) b hb)

/-- Any other stays out. -/
theorem smallest_stay (h : smallest k l = best ++ [last]) (hv : ¬ v < last)
    (hk : best.length + 1 = k) : smallest k (l ++ [v]) = smallest k l := by
  obtain ⟨rest, hperm, hle⟩ := smallest_split k l
  have hsorted := smallest_sorted k l
  rw [h] at hperm hle hsorted ⊢
  obtain ⟨-, -, hlast⟩ := pairwise_append.mp hsorted
  have hperm' : l ++ [v] ~ (best ++ [last]) ++ v :: rest :=
    (perm_append_singleton v l).trans ((hperm.cons v).trans perm_middle.symm)
  have heq := smallest_eq hperm' hsorted ?_
  · rwa [length_append, length_singleton, hk] at heq
  · intro a ha b hb
    rcases mem_cons.mp hb with rfl | hb
    · rcases mem_append.mp ha with ha | ha
      · exact (hlast a ha last (mem_singleton_self last)).trans (not_lt.mp hv)
      · rw [mem_singleton.mp ha]
        exact not_lt.mp hv
    · exact hle a ha b hb

end Schemes
