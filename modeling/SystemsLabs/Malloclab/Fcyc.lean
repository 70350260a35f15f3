import Mathlib
import SystemsLabs.Schemes.Heap
import SystemsLabs.Schemes.Smallest

/-! @lab malloclab | file:fcyc.c | structure:k-best sampler | scheme:heap, smallest |
    main result:fcyc_best

    `fcyc` measures until the best `kbest` of the positive measurements lie close together, or until
    there are `maxsamples` of them, and returns the best one. The measurements are the values of
    `clock`, of any ordered type; `slack v` is `(1 + epsilon) * v`. `values` is the array `calloc`
    gives, kept in order by an insertion sort in place, and an access outside it faults. The first
    loop of `fcyc`, which finds out how many calls of the function make up one measurement, and the
    clearing of the cache are not here. -/

namespace Labs.Fcyc
open Schemes List

structure Params (α : Type) where
  kbest : ℕ
  maxsamples : ℕ
  slack : α → α

structure Sampler (α : Type) where
  values : List α
  samplecount : ℕ

variable {α : Type} [LinearOrder α]

def init_sampler [Zero α] (kbest : ℕ) : Sampler α := ⟨replicate kbest 0, 0⟩

def load (values : List α) (pos : ℕ) : Except Stop α :=
  match values[pos]? with
  | some v => .ok v
  | none => .error .fault

def store (values : List α) (pos : ℕ) (v : α) : Except Stop (List α) :=
  if pos < values.length then .ok (values.set pos v) else .error .fault

/-- The insertion sort: `values[pos]` moves down past the larger ones. -/
def insertion : ℕ → List α → Except Stop (List α)
  | 0, values => .ok values
  | pos + 1, values => do
    let before ← load values pos
    let here ← load values (pos + 1)
    if before > here then
      let values ← store values pos here
      let values ← store values (pos + 1) before
      insertion pos values
    else .ok values

def add_sample (kbest : ℕ) (s : Sampler α) (val : α) : Except Stop (Sampler α) := do
  let values ←
    if s.samplecount < kbest then do
      let values ← store s.values s.samplecount val
      insertion s.samplecount values
    else do
      let worst ← load s.values (kbest - 1)
      if val < worst then do
        let values ← store s.values (kbest - 1) val
        insertion (kbest - 1) values
      else insertion 0 s.values
  .ok ⟨values, s.samplecount + 1⟩

def has_converged (p : Params α) (s : Sampler α) : Except Stop Bool :=
  if s.samplecount ≥ p.kbest then do
    let best ← load s.values 0
    let worst ← load s.values (p.kbest - 1)
    .ok (decide (p.slack best ≥ worst))
  else .ok false

/-- A measurement: only a positive one is a sample. -/
def measure [Zero α] (p : Params α) (cyc : α) (s : Sampler α) : Except Stop (Sampler α) :=
  if cyc > 0 then add_sample p.kbest s cyc else .ok s

/-- The `do` loop from measurement `n` on, and the result. -/
def sampleLoop [Zero α] (p : Params α) (clock : ℕ → α) : ℕ → ℕ → Sampler α → Except Stop α
  | 0, _, _ => .error .fuel
  | fuel + 1, n, s => do
    let s ← measure p (clock n) s
    let converged ← has_converged p s
    if !converged && decide (s.samplecount < p.maxsamples) then sampleLoop p clock fuel (n + 1) s
    else load s.values 0

def fcyc [Zero α] (p : Params α) (clock : ℕ → α) (fuel : ℕ) : Except Stop α :=
  sampleLoop p clock fuel 0 (init_sampler p.kbest)

/-! ### The array -/

section Arrays
variable {front back : List α} {v w : α}

omit [LinearOrder α] in
theorem load_at (front back : List α) (v : α) : load (front ++ v :: back) front.length = .ok v := by
  simp [load]

omit [LinearOrder α] in
theorem store_at (front back : List α) (v w : α) :
    store (front ++ v :: back) front.length w = .ok (front ++ w :: back) := by
  simp [store]

theorem orderedInsert_past (h : v ≤ w) :
    (front ++ [w]).orderedInsert (· ≤ ·) v = front.orderedInsert (· ≤ ·) v ++ [w] := by
  induction front with
  | nil => simp [h]
  | cons a front ih =>
    by_cases hva : v ≤ a
    · simp [hva]
    · simp [hva, ih]

theorem orderedInsert_last (hsorted : front.Pairwise (· ≤ ·)) (h : ∀ a ∈ front, a ≤ v) :
    front.orderedInsert (· ≤ ·) v = front ++ [v] := by
  refine Perm.eq_of_pairwise' (hsorted.orderedInsert v front) ?_
    ((perm_orderedInsert _ v front).trans (perm_append_singleton v front).symm)
  exact pairwise_append.mpr ⟨hsorted, pairwise_singleton _ v, fun a ha b hb => by
    rw [mem_singleton.mp hb]
    exact h a ha⟩

/-- The element goes to its place among those before it; those after it stay. -/
theorem insertion_inserts (hsorted : front.Pairwise (· ≤ ·)) :
    insertion front.length (front ++ v :: back) = .ok (front.orderedInsert (· ≤ ·) v ++ back) := by
  induction front using List.reverseRecOn generalizing back with
  | nil => rfl
  | append_singleton front w ih =>
    obtain ⟨hfront, -, hw⟩ := pairwise_append.mp hsorted
    have hhere : load (front ++ w :: v :: back) (front.length + 1) = .ok v := by
      simpa using load_at (front ++ [w]) back v
    rw [length_append, length_singleton, append_assoc, singleton_append, insertion, load_at, ok_bind,
      hhere, ok_bind]
    by_cases hwv : w > v
    · have hsecond : store (front ++ v :: v :: back) (front.length + 1) w
          = .ok (front ++ v :: w :: back) := by
        simpa using store_at (front ++ [v]) back v w
      rw [if_pos hwv, store_at, ok_bind, hsecond, ok_bind, ih hfront,
        orderedInsert_past (le_of_lt hwv), append_assoc, singleton_append]
    · have hlast : ∀ a ∈ front ++ [w], a ≤ v := by
        intro a ha
        rcases mem_append.mp ha with ha | ha
        · exact (hw a ha w (mem_singleton_self w)).trans (not_lt.mp hwv)
        · rw [mem_singleton.mp ha]
          exact not_lt.mp hwv
      rw [if_neg hwv, orderedInsert_last hsorted hlast]
      simp

end Arrays

/-! ### The sampler -/

section Sampling
variable {l : List α} {v : α} {p : Params α} {s : Sampler α} {k : ℕ}

/-- After the samples `l`: the smallest of them, in order, at the front of the array. -/
structure Holds (k : ℕ) (l : List α) (s : Sampler α) : Prop where
  count : s.samplecount = l.length
  size : s.values.length = k
  best : ∃ rest, s.values = smallest k l ++ rest

/-- The best `kbest` samples lie close together. -/
def Close (p : Params α) (l : List α) : Prop :=
  p.kbest ≤ l.length ∧ ∀ best ∈ (smallest p.kbest l).head?,
    ∀ worst ∈ (smallest p.kbest l).getLast?, worst ≤ p.slack best

theorem init_holds [Zero α] (k : ℕ) : Holds k ([] : List α) (init_sampler k) :=
  ⟨rfl, length_replicate, replicate k 0, by simp [init_sampler, smallest]⟩

/-- With as many samples as places, the array is the smallest of them. -/
theorem Holds.full (h : Holds k l s) (hk : k ≤ l.length) : s.values = smallest k l := by
  obtain ⟨rest, hvalues⟩ := h.best
  have hsize : (smallest k l ++ rest).length = k := hvalues ▸ h.size
  rw [length_append, smallest_length, Nat.min_eq_left hk] at hsize
  rw [hvalues, length_eq_zero_iff.mp (Nat.left_eq_add.mp hsize.symm), append_nil]

theorem Holds.first (h : Holds k l s) (hv : (smallest k l).head? = some v) :
    load s.values 0 = .ok v := by
  obtain ⟨rest, hvalues⟩ := h.best
  obtain ⟨best, hbest⟩ := head?_eq_some_iff.mp hv
  rw [hvalues, hbest]
  rfl

/-- A full array, split at its last place. -/
theorem Holds.split (h : Holds k l s) (hpos : 0 < k) (hk : k ≤ l.length) :
    ∃ best last, smallest k l = best ++ [last] ∧ best.length = k - 1 ∧ s.values = best ++ [last] := by
  have hlen : (smallest k l).length = k := by rw [smallest_length, Nat.min_eq_left hk]
  have hne : smallest k l ≠ [] := by
    intro hnil
    rw [hnil] at hlen
    exact absurd hlen (Nat.ne_of_lt hpos)
  refine ⟨(smallest k l).dropLast, (smallest k l).getLast hne, (dropLast_append_getLast hne).symm,
    by rw [length_dropLast, hlen], ?_⟩
  rw [dropLast_append_getLast hne]
  exact h.full hk

theorem Holds.add (h : Holds k l s) (hpos : 0 < k) :
    ∃ s', add_sample k s v = .ok s' ∧ Holds k (l ++ [v]) s' := by
  have hcount : s.samplecount + 1 = (l ++ [v]).length := by
    rw [h.count, length_append, length_singleton]
  by_cases hroom : l.length < k
  · obtain ⟨rest, hvalues⟩ := h.best
    have hsmall : (smallest k l).length = s.samplecount := by
      rw [smallest_length, Nat.min_eq_right (Nat.le_of_lt hroom), h.count]
    cases rest with
    | nil =>
      have hsize := h.size
      rw [hvalues, append_nil, hsmall, h.count] at hsize
      exact absurd hsize (Nat.ne_of_lt hroom)
    | cons zero rest =>
      have hins := @insertion_inserts _ _ _ rest v (smallest_sorted k l)
      rw [← smallest_room hroom, hsmall] at hins
      have hstore := store_at (smallest k l) rest zero v
      rw [hsmall] at hstore
      refine ⟨⟨smallest k (l ++ [v]) ++ rest, s.samplecount + 1⟩, ?_, hcount, ?_, rest, rfl⟩
      · rw [add_sample, if_pos (h.count ▸ hroom), hvalues, hstore, ok_bind, hins, ok_bind]
      · have hsize := h.size
        rw [hvalues, length_append, smallest_length, length_cons] at hsize
        rw [length_append, smallest_length, length_append, length_singleton]
        omega
  · obtain ⟨best, last, hsmall, hlen, hvalues⟩ := h.split hpos (not_lt.mp hroom)
    have hroom' : ¬ s.samplecount < k := h.count ▸ hroom
    have hload := load_at best [] last
    rw [hlen] at hload
    by_cases hv : v < last
    · have hins := @insertion_inserts _ _ best [] v
        (pairwise_append.mp (hsmall ▸ smallest_sorted k l)).1
      rw [hlen] at hins
      have hstore := store_at best [] last v
      rw [hlen] at hstore
      refine ⟨⟨best.orderedInsert (· ≤ ·) v ++ [], s.samplecount + 1⟩, ?_, hcount, ?_, [], ?_⟩
      · rw [add_sample, if_neg hroom', hvalues, hload, ok_bind, if_pos hv, hstore, ok_bind, hins,
          ok_bind]
      · rw [length_append, orderedInsert_length, hlen, length_nil]
        omega
      · rw [smallest_enter hsmall hv (by omega)]
    · refine ⟨⟨s.values, s.samplecount + 1⟩, ?_, hcount, h.size, [], ?_⟩
      · rw [add_sample, if_neg hroom', hvalues, hload, ok_bind, if_neg hv, insertion, ok_bind]
      · rw [smallest_stay hsmall hv (by omega), hsmall, hvalues, append_nil]

theorem Holds.converged (h : Holds p.kbest l s) (hpos : 0 < p.kbest) :
    ∃ b, has_converged p s = .ok b ∧ (b = true ↔ Close p l) := by
  by_cases hk : p.kbest ≤ l.length
  · obtain ⟨best, last, hsmall, hlen, hvalues⟩ := h.split hpos hk
    obtain ⟨first, hfirst⟩ : ∃ first, (smallest p.kbest l).head? = some first := by
      rw [hsmall]
      cases best <;> exact ⟨_, rfl⟩
    have hload := load_at best [] last
    rw [hlen] at hload
    refine ⟨decide (p.slack first ≥ last), ?_, ?_⟩
    · rw [has_converged, if_pos (h.count ▸ hk), h.first hfirst, ok_bind, hvalues, hload, ok_bind]
    · rw [Close, hfirst, hsmall, getLast?_concat]
      simp [hk]
  · exact ⟨false, by rw [has_converged, if_neg (h.count ▸ hk)], by simp [Close, hk]⟩

end Sampling

/-! ### The loop -/

section Looping
variable [Zero α] {p : Params α} {clock : ℕ → α} {best : α} {n fuel : ℕ} {s : Sampler α}

/-- The samples among the first `n` measurements. -/
def taken (clock : ℕ → α) (n : ℕ) : List α := ((range n).map clock).filter (0 < ·)

def Stops (p : Params α) (l : List α) : Prop := Close p l ∨ p.maxsamples ≤ l.length

/-- Measurement `n` is the last one. -/
structure Ends (p : Params α) (clock : ℕ → α) (n : ℕ) : Prop where
  some_made : 0 < n
  stops : Stops p (taken clock n)
  first : ∀ m, 0 < m → m < n → ¬ Stops p (taken clock m)

theorem taken_succ (clock : ℕ → α) (n : ℕ) :
    taken clock (n + 1) = if clock n > 0 then taken clock n ++ [clock n] else taken clock n := by
  rw [taken, range_succ, map_append, filter_append]
  by_cases h : clock n > 0
  · rw [if_pos h]
    simp [taken, h]
  · rw [if_neg h]
    simp [taken, h]

theorem taken_length_succ (clock : ℕ → α) (n : ℕ) :
    (taken clock (n + 1)).length ≤ (taken clock n).length + 1 := by
  rw [taken_succ]
  split
  · rw [length_append, length_singleton]
  · exact Nat.le_succ _

/-- One round measures, and then either ends or goes on. -/
theorem sampleLoop_round (hk : 0 < p.kbest) (h : Holds p.kbest (taken clock n) s) :
    ∃ s', Holds p.kbest (taken clock (n + 1)) s' ∧
      (Stops p (taken clock (n + 1)) →
        ∀ fuel, sampleLoop p clock (fuel + 1) n s = load s'.values 0) ∧
      (¬ Stops p (taken clock (n + 1)) →
        ∀ fuel, sampleLoop p clock (fuel + 1) n s = sampleLoop p clock fuel (n + 1) s') := by
  obtain ⟨s', hadd, hs'⟩ : ∃ s', measure p (clock n) s = .ok s' ∧
      Holds p.kbest (taken clock (n + 1)) s' := by
    rw [taken_succ, measure]
    by_cases hpos : clock n > 0
    · simpa only [if_pos hpos] using h.add hk
    · exact ⟨s, by rw [if_neg hpos], by rwa [if_neg hpos]⟩
  obtain ⟨b, hconv, hb⟩ := hs'.converged hk
  refine ⟨s', hs', fun hstops fuel => ?_, fun hstops fuel => ?_⟩
  · have hlast : (!b && decide (s'.samplecount < p.maxsamples)) = false := by
      rcases hstops with hclose | hmax
      · rw [hb.mpr hclose]
        rfl
      · rw [hs'.count, decide_eq_false (not_lt.mpr hmax), Bool.and_false]
    rw [sampleLoop, hadd, ok_bind, hconv, ok_bind, hlast]
    rfl
  · have hmore : (!b && decide (s'.samplecount < p.maxsamples)) = true := by
      obtain ⟨hclose, hmax⟩ := not_or.mp hstops
      rw [hs'.count, decide_eq_true (not_le.mp hmax), Bool.and_true, Bool.not_eq_true']
      exact Bool.eq_false_iff.mpr fun h => hclose (hb.mp h)
    rw [sampleLoop, hadd, ok_bind, hconv, ok_bind, hmore]
    rfl

/-- Where the sampling stops there is a sample. -/
theorem Stops.head (h : Stops p (taken clock n)) (hk : 0 < p.kbest) (hm : 0 < p.maxsamples) :
    ∃ v, (smallest p.kbest (taken clock n)).head? = some v := by
  have hsome : 0 < (smallest p.kbest (taken clock n)).length := by
    rw [smallest_length]
    rcases h with ⟨hfull, -⟩ | hmax
    · omega
    · omega
  obtain ⟨v, rest, hcons⟩ := exists_cons_of_length_pos hsome
  exact ⟨v, by rw [hcons]; rfl⟩

/-- A loop that has returned did so at the first stop. -/
theorem sampleLoop_result (hk : 0 < p.kbest) (hm : 0 < p.maxsamples) :
    ∀ {fuel n : ℕ} {s : Sampler α}, Holds p.kbest (taken clock n) s →
      (∀ m, 0 < m → m ≤ n → ¬ Stops p (taken clock m)) →
      sampleLoop p clock fuel n s = .ok best →
      ∃ e, Ends p clock e ∧ IsLeast {v | v ∈ taken clock e} best
  | 0, _, _, _, _, hrun => by cases hrun
  | fuel + 1, n, s, h, hbefore, hrun => by
    obtain ⟨s', hs', hend, hgo⟩ := sampleLoop_round hk h
    by_cases hstops : Stops p (taken clock (n + 1))
    · obtain ⟨v, hv⟩ := hstops.head hk hm
      rw [hend hstops, hs'.first hv] at hrun
      cases hrun
      exact ⟨n + 1, ⟨Nat.succ_pos n, hstops, fun m hm hlt => hbefore m hm (Nat.le_of_lt_succ hlt)⟩,
        smallest_least hv⟩
    · rw [hgo hstops] at hrun
      refine sampleLoop_result hk hm hs' (fun m hm hle => ?_) hrun
      rcases Nat.le_succ_iff.mp hle with hle | rfl
      · exact hbefore m hm hle
      · exact hstops

/-- No access faults, even in a loop that never stops. -/
theorem sampleLoop_safe (hk : 0 < p.kbest) (hm : 0 < p.maxsamples) :
    ∀ {fuel n : ℕ} {s : Sampler α}, Holds p.kbest (taken clock n) s →
      sampleLoop p clock fuel n s = .error .fuel ∨ ∃ best, sampleLoop p clock fuel n s = .ok best
  | 0, _, _, _ => Or.inl rfl
  | fuel + 1, n, s, h => by
    obtain ⟨s', hs', hend, hgo⟩ := sampleLoop_round hk h
    by_cases hstops : Stops p (taken clock (n + 1))
    · obtain ⟨v, hv⟩ := hstops.head hk hm
      exact Or.inr ⟨v, (hend hstops fuel).trans (hs'.first hv)⟩
    · rw [hgo hstops]
      exact sampleLoop_safe hk hm hs'

/-- With a stop ahead the loop returns. -/
theorem sampleLoop_returns (hk : 0 < p.kbest) (hm : 0 < p.maxsamples) {d : ℕ}
    (h : Holds p.kbest (taken clock n) s) (hstops : Stops p (taken clock (n + d + 1))) :
    ∃ best, Converges (fun fuel => sampleLoop p clock fuel n s) best := by
  induction d generalizing n s with
  | zero =>
    obtain ⟨s', hs', hend, -⟩ := sampleLoop_round hk h
    obtain ⟨v, hv⟩ := Stops.head hstops hk hm
    exact ⟨v, Converges.const.succ fun fuel => (hend hstops fuel).trans (hs'.first hv)⟩
  | succ d ih =>
    obtain ⟨s', hs', hend, hgo⟩ := sampleLoop_round hk h
    by_cases hnow : Stops p (taken clock (n + 1))
    · obtain ⟨v, hv⟩ := hnow.head hk hm
      exact ⟨v, Converges.const.succ fun fuel => (hend hnow fuel).trans (hs'.first hv)⟩
    · obtain ⟨best, hbest⟩ := ih hs' (by rwa [Nat.add_right_comm n 1 d])
      exact ⟨best, hbest.succ (hgo hnow)⟩

theorem Ends.unique {e e' : ℕ} (h : Ends p clock e) (h' : Ends p clock e') : e = e' := by
  rcases Nat.lt_trichotomy e e' with hlt | heq | hgt
  · exact absurd h.stops (h'.first e h.some_made hlt)
  · exact heq
  · exact absurd h'.stops (h.first e' h'.some_made hgt)

theorem Ends.at_most (h : Ends p clock n) (hm : 0 < p.maxsamples) :
    (taken clock n).length ≤ p.maxsamples := by
  obtain ⟨m, rfl⟩ : ∃ m, n = m + 1 := Nat.exists_eq_add_of_le' h.some_made
  have hstep := taken_length_succ clock m
  cases m with
  | zero =>
    have hnone : (taken clock 0).length = 0 := rfl
    rw [Nat.zero_add] at hstep ⊢
    omega
  | succ m =>
    have hbefore := not_or.mp (h.first (m + 1) (Nat.succ_pos m) (Nat.lt_succ_self _))
    omega

theorem taken_grows (hoften : ∀ n, ∃ m, n ≤ m ∧ 0 < clock m) (c : ℕ) :
    ∃ n, c ≤ (taken clock n).length := by
  induction c with
  | zero => exact ⟨0, Nat.zero_le _⟩
  | succ c ih =>
    obtain ⟨n, hn⟩ := ih
    obtain ⟨m, hnm, hm⟩ := hoften n
    have hmono : (taken clock n).length ≤ (taken clock m).length :=
      ((range_sublist.mpr hnm).map clock |>.filter _).length_le
    refine ⟨m + 1, ?_⟩
    rw [taken_succ, if_pos hm, length_append, length_singleton]
    omega

theorem fcyc_best (hk : 0 < p.kbest) (hm : 0 < p.maxsamples) :
    (∀ best, Converges (fcyc p clock) best ↔
      ∃ n, Ends p clock n ∧ IsLeast {v | v ∈ taken clock n} best) ∧
    (∀ n, Ends p clock n → (taken clock n).length ≤ p.maxsamples) ∧
    ((∀ n, ∃ m, n ≤ m ∧ 0 < clock m) → ∃ best, Converges (fcyc p clock) best) ∧
    ∀ fuel, fcyc p clock fuel = .error .fuel ∨ ∃ best, fcyc p clock fuel = .ok best := by
  have hinit : Holds p.kbest (taken clock 0) (init_sampler p.kbest) := init_holds p.kbest
  have hnone : ∀ m, 0 < m → m ≤ 0 → ¬ Stops p (taken clock m) := fun m hm hle => by omega
  refine ⟨fun best => ⟨?_, ?_⟩, fun n hn => hn.at_most hm, fun hoften => ?_,
    fun _ => sampleLoop_safe hk hm hinit⟩
  · rintro ⟨N, hN⟩
    exact sampleLoop_result hk hm hinit hnone (hN N (Nat.le_refl N))
  · rintro ⟨n, hn, hleast⟩
    obtain ⟨d, rfl⟩ : ∃ d, n = d + 1 := Nat.exists_eq_add_of_le' hn.some_made
    have hstops : Stops p (taken clock (0 + d + 1)) := by
      rw [Nat.zero_add]
      exact hn.stops
    obtain ⟨v, N, hN⟩ := sampleLoop_returns hk hm hinit hstops
    obtain ⟨e, he, hv⟩ := sampleLoop_result hk hm hinit hnone (hN N (Nat.le_refl N))
    rw [he.unique hn] at hv
    rw [hleast.unique hv]
    exact ⟨N, hN⟩
  · obtain ⟨n, hn⟩ := taken_grows hoften (max p.maxsamples 1)
    cases n with
    | zero => exact absurd hn (by simp [taken])
    | succ n =>
      refine sampleLoop_returns hk hm hinit (d := n) (Or.inr ?_)
      rw [Nat.zero_add]
      omega

/-- Best of two, within a factor of two, at most three samples. -/
def halving : Params ℕ := ⟨2, 3, (2 * ·)⟩

/-- The clock counts up, so the first two samples, 1 and 2, end it. -/
theorem fcyc_best_halving :
    (∃ n, Ends halving id n ∧ IsLeast {v | v ∈ taken id n} 1 ∧ (taken id n).length ≤ 3) ∧
    ∃ best, Converges (fcyc halving id) best := by
  have hone : Converges (fcyc halving id) 1 := ⟨3, fun fuel hfuel => by
    obtain ⟨k, rfl⟩ := Nat.exists_eq_add_of_le' hfuel
    rfl⟩
  obtain ⟨hresult, hfew, hreturns, -⟩ := @fcyc_best ℕ _ _ halving id (by decide) (by decide)
  obtain ⟨n, hends, hleast⟩ := (hresult 1).mp hone
  exact ⟨⟨n, hends, hleast, hfew n hends⟩, hreturns fun n => ⟨n + 1, Nat.le_succ n, Nat.succ_pos n⟩⟩

end Looping

end Labs.Fcyc
