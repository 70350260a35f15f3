import Mathlib.Algebra.BigOperators.Group.List.Basic
import Mathlib.Algebra.Order.Ring.Nat
import Mathlib.Data.Finset.Card
import Mathlib.Data.List.Dedup
import Mathlib.Data.List.TakeWhile
import Mathlib.Data.Nat.Find

/-! @scheme recency | structure:move-to-front list | used by:LRU stores

    The recency list of an access history holds every accessed element once, most recently used
    first. It is a streaming fold (`touch` moves the accessed element to the front), and the position
    of an element in it counts the distinct elements accessed since. An LRU store of capacity `n`
    holds exactly the first `n` entries, whatever concrete stamps it keeps: `Ordered` relates a store
    whose entries carry time stamps to its recency order, and `scanMin` is the usual linear scan for
    the smallest stamp, started from a sentinel. -/

namespace Schemes

section Recency
variable {α : Type*} [DecidableEq α]

/-- Move `x` to the front of a recency list. -/
def touch (r : List α) (x : α) : List α := x :: r.erase x

/-- Recency list of a history (oldest access first). -/
def recency (h : List α) : List α := h.foldl touch []

/-- The accesses made after the last access to `x`, latest first. -/
def since (x : α) (h : List α) : List α := h.reverse.takeWhile (· ≠ x)

@[simp] theorem recency_nil : recency ([] : List α) = [] := rfl

@[simp] theorem recency_concat (h : List α) (x : α) :
    recency (h ++ [x]) = touch (recency h) x := by
  simp [recency]

theorem mem_touch {r : List α} {x y : α} : y ∈ touch r x ↔ y = x ∨ y ∈ r := by
  rw [touch, List.mem_cons]
  by_cases hy : y = x
  · simp [hy]
  · rw [List.mem_erase_of_ne hy]

@[simp] theorem mem_recency {h : List α} {x : α} : x ∈ recency h ↔ x ∈ h := by
  induction h using List.reverseRecOn with
  | nil => simp
  | append_singleton h y ih => rw [recency_concat, mem_touch, ih]; simp [or_comm]

theorem touch_middle {r₁ r₂ : List α} {x : α} (hx : x ∉ r₁) :
    touch (r₁ ++ x :: r₂) x = x :: (r₁ ++ r₂) := by
  rw [touch, List.erase_append_right _ hx, List.erase_cons_head]

theorem nodup_touch {r : List α} (x : α) (hr : r.Nodup) : (touch r x).Nodup :=
  List.nodup_cons.mpr ⟨hr.not_mem_erase, hr.erase x⟩

theorem nodup_recency (h : List α) : (recency h).Nodup := by
  induction h using List.reverseRecOn with
  | nil => simp
  | append_singleton h y ih => rw [recency_concat]; exact nodup_touch y ih

theorem length_recency (h : List α) : (recency h).length = h.toFinset.card := by
  rw [← List.toFinset_card_of_nodup (nodup_recency h)]
  congr 1
  ext x
  simp

/-- The recency list in front of `x` lists what was accessed since the last access to `x`. -/
theorem mem_takeWhile_recency (x y : α) : ∀ h : List α,
    y ∈ (recency h).takeWhile (· ≠ x) ↔ y ∈ since x h := by
  intro h
  induction h using List.reverseRecOn with
  | nil => simp [since]
  | append_singleton h z ih =>
    rw [recency_concat, touch, since, List.reverse_append, List.reverse_singleton,
      List.singleton_append]
    by_cases hz : z = x
    · simp [hz]
    · rw [List.takeWhile_cons_of_pos (by simpa using hz),
        List.takeWhile_cons_of_pos (by simpa using hz), List.mem_cons, List.mem_cons]
      by_cases hy : y = z
      · simp [hy]
      · rw [← since, ← ih, takeWhile_erase hz, List.mem_erase_of_ne hy]
where
  takeWhile_erase {z : α} (hz : z ≠ x) : ∀ {r : List α},
      (r.erase z).takeWhile (· ≠ x) = (r.takeWhile (· ≠ x)).erase z := by
    intro r
    induction r with
    | nil => rfl
    | cons a r ih =>
      by_cases ha : a = z
      · subst ha
        rw [List.erase_cons_head, List.takeWhile_cons_of_pos (by simpa using hz),
          List.erase_cons_head]
      · rw [List.erase_cons_tail (by simpa using ha)]
        by_cases hx : a = x
        · rw [List.takeWhile_cons_of_neg (by simpa using hx),
            List.takeWhile_cons_of_neg (by simpa using hx)]; rfl
        · rw [List.takeWhile_cons_of_pos (by simpa using hx),
            List.takeWhile_cons_of_pos (by simpa using hx), ih,
            List.erase_cons_tail (by simpa using ha)]

/-- What stands in front of `x` was accessed after it. -/
theorem mem_since_of_recency {h r₁ r₂ : List α} {x y : α} (hr : recency h = r₁ ++ x :: r₂)
    (hy : y ∈ r₁) : y ∈ since x h := by
  have hnd := nodup_recency h
  rw [hr] at hnd
  have hne : ∀ z ∈ r₁, decide (z ≠ x) = true := by
    intro z hz
    simpa using (List.nodup_append.mp hnd).2.2 z hz x (List.mem_cons_self ..)
  rw [← mem_takeWhile_recency, hr, List.takeWhile_append_of_pos hne]
  exact List.mem_append_left _ hy

theorem mem_take_iff_takeWhile {r : List α} {x : α} {n : ℕ} :
    x ∈ r.take n ↔ x ∈ r ∧ (r.takeWhile (· ≠ x)).length < n := by
  induction r generalizing n with
  | nil => simp
  | cons a r ih =>
    cases n with
    | zero => simp
    | succ n =>
      by_cases ha : a = x
      · simp [ha]
      · rw [List.take_succ_cons, List.mem_cons, ih, List.mem_cons,
          List.takeWhile_cons_of_pos (by simpa using ha)]
        simp [Ne.symm ha]

/-- Stack distance: `x` is among the `n` most recent elements iff it was accessed and fewer than
    `n` distinct elements were accessed since. -/
theorem mem_take_recency (h : List α) (x : α) (n : ℕ) :
    x ∈ (recency h).take n ↔ x ∈ h ∧ (since x h).toFinset.card < n := by
  have hcard : (since x h).toFinset.card = ((recency h).takeWhile (· ≠ x)).length := by
    rw [← List.toFinset_card_of_nodup ((nodup_recency h).sublist (List.takeWhile_sublist _))]
    congr 1
    ext y
    simp only [List.mem_toFinset, mem_takeWhile_recency]
  rw [hcard, ← mem_recency (h := h), mem_take_iff_takeWhile]

/-- Restricting the history to elements like `x` restricts what was accessed since `x`. -/
theorem since_filter {p : α → Bool} {x : α} (hx : p x = true) (h : List α) :
    since x (h.filter p) = (since x h).filter p := by
  rw [since, since, ← List.filter_reverse]
  induction h.reverse with
  | nil => rfl
  | cons a l ih =>
    rcases eq_or_ne a x with rfl | ha
    · simp [hx]
    · cases hp : p a <;> simp [ha, hp] at ih ⊢ <;> exact ih

/-! ### Capacity: the first `n` entries of the recency list -/

theorem take_touch_of_mem {r : List α} {x : α} {n : ℕ} (hx : x ∈ r.take n) :
    (touch r x).take n = touch (r.take n) x := by
  induction r generalizing n with
  | nil => simp at hx
  | cons a r ih =>
    cases n with
    | zero => simp at hx
    | succ n =>
      rw [touch, List.take_succ_cons, List.take_succ_cons, touch]
      by_cases ha : a = x
      · simp [ha]
      · have hx' : x ∈ r.take n := by simpa [Ne.symm ha] using hx
        cases n with
        | zero => simp at hx'
        | succ n =>
          have hrec := ih hx'
          rw [touch, List.take_succ_cons, touch, List.cons.injEq] at hrec
          rw [List.erase_cons_tail (by simpa using ha), List.take_succ_cons, hrec.2,
            List.erase_cons_tail (by simpa using ha)]

theorem take_touch_of_not_mem {r : List α} {x : α} {n : ℕ} (hx : x ∉ r.take (n + 1)) :
    (touch r x).take (n + 1) = x :: r.take n := by
  rw [touch, List.take_succ_cons]
  congr 1
  induction r generalizing n with
  | nil => simp
  | cons a r ih =>
    have ha : a ≠ x := by rintro rfl; simp at hx
    rw [List.erase_cons_tail (by simpa using ha)]
    cases n with
    | zero => rfl
    | succ n =>
      rw [List.take_succ_cons, List.take_succ_cons, ih]
      intro hm
      exact hx (by rw [List.take_succ_cons]; exact List.mem_cons_of_mem _ hm)

end Recency

/-! ### Counting along a history -/

section Count
variable {α : Type*} {P Q : List α → α → Bool} {h : List α}

/-- How many elements of the history meet `P` with what came before them. -/
def countAlong (P : List α → α → Bool) (h : List α) : ℕ :=
  (List.range h.length).countP fun n => h[n]?.any (P (h.take n))

@[simp] theorem countAlong_nil : countAlong P [] = 0 := rfl

theorem countAlong_concat (h : List α) (a : α) :
    countAlong P (h ++ [a]) = countAlong P h + if P h a then 1 else 0 := by
  have hold : (List.range h.length).countP
      (fun n => (h ++ [a])[n]?.any (P ((h ++ [a]).take n))) = countAlong P h := by
    refine List.countP_congr fun n hn => ?_
    have hlt := List.mem_range.mp hn
    rw [List.getElem?_append_left hlt, List.take_append_of_le_length hlt.le]
  rw [countAlong, List.length_append, List.length_singleton, List.range_succ, List.countP_append,
    hold, List.countP_singleton]
  simp

theorem countAlong_mono (hPQ : ∀ pre a, pre ++ [a] <+: h → P pre a = true → Q pre a = true) :
    countAlong P h ≤ countAlong Q h := by
  refine List.countP_mono_left fun n hn hP => ?_
  have hlt := List.mem_range.mp hn
  rw [List.getElem?_eq_getElem hlt, Option.any_some] at hP ⊢
  refine hPQ _ _ ?_ hP
  rw [← List.take_succ_eq_append_getElem hlt]
  exact List.take_prefix _ _

end Count

/-! ### Stores that keep time stamps -/

section Stamped
variable {α : Type*} {stamp : α → ℕ} {now : ℕ}

/-- `rs` lists the entries of the store `l` from the latest to the earliest stamp, none of them
    later than `now`. -/
structure Ordered (stamp : α → ℕ) (now : ℕ) (l rs : List α) : Prop where
  perm : rs.Perm l
  desc : rs.Pairwise (fun x y => stamp y < stamp x)
  le : ∀ x ∈ rs, stamp x ≤ now

theorem ordered_nil : Ordered stamp now [] [] := ⟨.refl _, .nil, by simp⟩

/-- Stamping a new entry with a later time puts it in front, wherever the store keeps it. -/
theorem Ordered.insert {l₁ l₂ rs : List α} (h : Ordered stamp now (l₁ ++ l₂) rs) {x : α} {t : ℕ}
    (hx : stamp x = t) (ht : now < t) : Ordered stamp t (l₁ ++ x :: l₂) (x :: rs) where
  perm := (h.perm.cons x).trans List.perm_middle.symm
  desc := List.pairwise_cons.mpr ⟨fun y hy => by have := h.le y hy; omega, h.desc⟩
  le := by
    intro y hy
    rcases List.mem_cons.mp hy with rfl | hy
    · exact hx.le
    · exact (h.le y hy).trans ht.le

/-- Removing any entry keeps the order of the others. -/
theorem Ordered.remove {l₁ l₂ r₁ r₂ : List α} {x : α}
    (h : Ordered stamp now (l₁ ++ x :: l₂) (r₁ ++ x :: r₂)) :
    Ordered stamp now (l₁ ++ l₂) (r₁ ++ r₂) where
  perm := (List.perm_cons x).mp
    (List.perm_middle.symm.trans (h.perm.trans List.perm_middle))
  desc := h.desc.sublist (List.Sublist.append_left (List.sublist_cons_self _ _) _)
  le := fun y hy => h.le y (by
    rw [List.mem_append, List.mem_cons]
    exact (List.mem_append.mp hy).imp_right Or.inr)

/-- The last entry of the order has the smallest stamp of the whole store. -/
theorem Ordered.lt_of_ne_last {l rs : List α} {x : α} (h : Ordered stamp now l (rs ++ [x])) :
    ∀ y ∈ l, y ≠ x → stamp x < stamp y := by
  intro y hy hne
  have hy' := h.perm.mem_iff.mpr hy
  rw [List.mem_append, List.mem_singleton] at hy'
  have hy'' := hy'.resolve_right hne
  exact (List.pairwise_append.mp h.desc).2.2 y hy'' x (by simp)

/-- Strict minimum scan: keep `best` until an entry with a smaller key than `m` is met. -/
def scanMin (key : α → ℕ) : List α → ℕ → Option α → Option α
  | [], _, best => best
  | x :: xs, m, best => if key x < m then scanMin key xs (key x) (some x) else scanMin key xs m best

theorem scanMin_of_le {key : α → ℕ} {l : List α} {m : ℕ} {best : Option α}
    (h : ∀ x ∈ l, m ≤ key x) : scanMin key l m best = best := by
  induction l with
  | nil => rfl
  | cons a l ih =>
    rw [scanMin, if_neg (by have := h a (by simp); omega)]
    exact ih fun x hx => h x (List.mem_cons_of_mem _ hx)

/-- The scan returns the entry whose key is below the sentinel and below every other key. -/
theorem scanMin_of_least {key : α → ℕ} {l : List α} {x : α} {m : ℕ} {best : Option α} (hx : x ∈ l)
    (hm : key x < m) (hl : ∀ y ∈ l, y ≠ x → key x < key y) : scanMin key l m best = some x := by
  induction l generalizing m best with
  | nil => simp at hx
  | cons a l ih =>
    rw [scanMin]
    by_cases ha : a = x
    · subst ha
      rw [if_pos hm]
      refine scanMin_of_le fun y hy => ?_
      by_cases hya : y = a
      · rw [hya]
      · exact (hl y (List.mem_cons_of_mem _ hy) hya).le
    · have hxl : x ∈ l := (List.mem_cons.mp hx).resolve_left (Ne.symm ha)
      have hl' : ∀ y ∈ l, y ≠ x → key x < key y := fun y hy => hl y (List.mem_cons_of_mem _ hy)
      have hax := hl a (List.mem_cons_self ..) ha
      split
      · exact ih hxl hax hl'
      · exact ih hxl hm hl'

theorem scanMin_isSome {key : α → ℕ} {l : List α} {m : ℕ} {b : α} :
    ∃ x, scanMin key l m (some b) = some x := by
  induction l generalizing m b with
  | nil => exact ⟨b, rfl⟩
  | cons a l ih => rw [scanMin]; split <;> exact ih

/-- A scan that starts with no candidate finds none iff no key is below the sentinel. -/
theorem scanMin_eq_none {key : α → ℕ} {l : List α} {m : ℕ} :
    scanMin key l m none = none ↔ ∀ x ∈ l, m ≤ key x := by
  refine ⟨fun h => ?_, scanMin_of_le⟩
  induction l with
  | nil => simp
  | cons a l ih =>
    rw [scanMin] at h
    split at h
    · obtain ⟨x, hx⟩ := @scanMin_isSome α key l (key a) a
      rw [hx] at h; simp at h
    · rename_i ha
      intro x hx
      rcases List.mem_cons.mp hx with rfl | hx
      · exact Nat.le_of_not_lt ha
      · exact ih h x hx

theorem scanMin_mem {key : α → ℕ} {l : List α} {m : ℕ} {best : Option α} {x : α}
    (h : scanMin key l m best = some x) : best = some x ∨ (x ∈ l ∧ key x < m) := by
  induction l generalizing m best with
  | nil => exact Or.inl h
  | cons a l ih =>
    rw [scanMin] at h
    split at h
    · rename_i ha
      rcases ih h with h | ⟨hx, hlt⟩
      · cases h; exact Or.inr ⟨List.mem_cons_self .., ha⟩
      · exact Or.inr ⟨List.mem_cons_of_mem _ hx, hlt.trans ha⟩
    · rcases ih h with h | ⟨hx, hlt⟩
      · exact Or.inl h
      · exact Or.inr ⟨List.mem_cons_of_mem _ hx, hlt⟩

end Stamped

/-! ### Stores bounded by weight -/

section Weight
variable {α β : Type*} {w : α → ℕ} {cap : ℕ} {r : List α}

/-- The longest front part of `r` whose total weight is at most `cap`: the least recently used end
    gives up as few entries as possible. -/
def fit (w : α → ℕ) (cap : ℕ) (r : List α) : List α :=
  r.take (Nat.findGreatest (fun k => ((r.take k).map w).sum ≤ cap) r.length)

theorem fit_of_le (h : (r.map w).sum ≤ cap) : fit w cap r = r := by
  have hk : Nat.findGreatest (fun k => ((r.take k).map w).sum ≤ cap) r.length = r.length :=
    Nat.findGreatest_eq_iff.mpr ⟨le_refl _, fun _ => by simpa using h, fun _ _ _ => by omega⟩
  rw [fit, hk, List.take_length]

theorem fit_concat {x : α} (h : cap < ((r ++ [x]).map w).sum) :
    fit w cap (r ++ [x]) = fit w cap r := by
  have htake : ∀ k ≤ r.length, (r ++ [x]).take k = r.take k := fun k hk =>
    List.take_append_of_le_length hk
  have hk : Nat.findGreatest (fun k => (((r ++ [x]).take k).map w).sum ≤ cap) (r ++ [x]).length =
      Nat.findGreatest (fun k => ((r.take k).map w).sum ≤ cap) r.length := by
    obtain ⟨hle, hP, hmax⟩ := Nat.findGreatest_eq_iff.mp
      (rfl : Nat.findGreatest (fun k => ((r.take k).map w).sum ≤ cap) r.length = _)
    refine Nat.findGreatest_eq_iff.mpr ⟨hle.trans (by simp), fun h0 => ?_, fun n hn hnl => ?_⟩
    · rw [htake _ hle]; exact hP h0
    · rw [List.length_append, List.length_singleton] at hnl
      rcases Nat.lt_or_ge r.length n with hlt | hge
      · rw [List.take_of_length_le (by simp; omega)]; omega
      · rw [htake n hge]; exact hmax hn hge
  rw [fit, hk, htake _ (Nat.findGreatest_le _), fit]

theorem fit_map (f : β → α) (l : List β) :
    fit w cap (l.map f) = (fit (fun x => w (f x)) cap l).map f := by
  simp only [fit, ← List.map_take, List.map_map, List.length_map]
  rfl

theorem fit_congr {v : α → ℕ} (h : ∀ x ∈ r, v x = w x) : fit v cap r = fit w cap r := by
  have hk : ∀ k, (r.take k).map v = (r.take k).map w := fun k =>
    List.map_congr_left fun x hx => h x (List.mem_of_mem_take hx)
  simp only [fit, hk]

theorem fit_sublist : (fit w cap r).Sublist r := List.take_sublist _ _

end Weight

end Schemes
