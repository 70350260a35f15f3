import SystemsLabs.Proxylab.CacheSections

/-! @lab proxylab | file:cache.c (add_to_cache, evict_age) | main result:when the eviction loop ends

    `evict_age` starts its scan from the sentinel `MIN`, so it never returns a block whose age has
    reached it, and the eviction loop goes round unchanged when no block qualifies. `slots` plus the
    bytes of the blocks below the sentinel is the measure: an eviction moves bytes from the second
    to the first, and the loop ends iff the new object fits into the sum. A server that lives long
    enough leaves this region: `spin` does it with one cached object hit `MIN` times. -/

namespace Labs.WebCache
open Schemes

/-- Bytes of the blocks the age scan can pick. -/
def evictable (l : List Block) : ℕ := stored (l.filter (·.2.age < MIN))

/-- The loop makes progress to its end: each round finds a node of the list, and its removal
    strictly increases the free bytes. -/
inductive Drains (size : ℕ) : Mem → Prop where
  | fits {m : Mem} : size ≤ m.cache.slots → Drains size m
  | evict {m m' : Mem} {l : List Block} {a : Ptr} : m.cache.slots < size → Rep m l →
      a ∈ l.map Prod.fst → Converges (fun fuel => evict_age fuel m) a →
      Converges (fun fuel => remove_from_cache fuel m a) m' → m.cache.slots < m'.cache.slots →
      Drains size m' → Drains size m

/-- The loop ends, with enough fuel. -/
def Finishes (size : ℕ) (m : Mem) : Prop :=
  ∃ m', Converges (fun fuel => evictLoop fuel size fuel m) m'

/-- The loop runs out of any fuel. -/
def Spins (size : ℕ) (m : Mem) : Prop :=
  ∃ N, ∀ fuel, N ≤ fuel → ∀ n, evictLoop fuel size n m = .error .fuel

theorem evictable_middle {l₁ l₂ : List Block} {x : Block} (hx : x.2.age < MIN) :
    evictable (l₁ ++ x :: l₂) = x.2.size + evictable (l₁ ++ l₂) := by
  simp only [evictable, List.filter_append]
  rw [List.filter_cons_of_pos (by simpa using hx), stored_middle]

theorem evictable_eq_zero {l : List Block} (h : ∀ x ∈ l, MIN ≤ x.2.age) : evictable l = 0 := by
  have hnil : l.filter (·.2.age < MIN) = [] := by
    rw [List.filter_eq_nil_iff]
    intro x hx
    have := h x hx
    simpa using this
  rw [evictable, hnil]
  rfl

theorem Finishes.not_spins {size : ℕ} {m : Mem} (h : Finishes size m) : ¬ Spins size m := by
  rintro ⟨M, hM⟩
  obtain ⟨m', hends⟩ := h
  obtain ⟨fuel, hfuel, hrun⟩ := hends.above M
  cases (hM fuel hfuel fuel).symm.trans hrun

/-! ### The loop ends iff the object fits into the free and the evictable bytes -/

theorem evictLoop_ends {size : ℕ} : ∀ {k : ℕ} {l : List Block} {m : Mem}, l.length = k →
    Accounted m l → size ≤ m.cache.slots + evictable l →
    Drains size m ∧ ∃ m', ∀ fuel n, k < fuel → k < n → evictLoop fuel size n m = .ok m' := by
  intro k
  induction k with
  | zero =>
    intro l m hl hac hsize
    obtain rfl := List.length_eq_zero_iff.mp hl
    have hle : size ≤ m.cache.slots := by simpa [evictable, stored] using hsize
    refine ⟨.fits hle, m, fun fuel n _ hn => ?_⟩
    obtain ⟨n, rfl⟩ := Nat.exists_eq_succ_of_ne_zero (Nat.ne_of_gt hn)
    rw [evictLoop, if_neg (by omega)]
  | succ k ih =>
    intro l m hl hac hsize
    rcases evictLoop_round hac with ⟨hle, heq⟩ | ⟨hlt, hnone, -⟩ |
      ⟨hlt, x, l₁, l₂, m', hscan, rfl, hac', hslots, hround⟩
    · refine ⟨.fits hle, m, fun fuel n _ hn => ?_⟩
      obtain ⟨n, rfl⟩ := Nat.exists_eq_succ_of_ne_zero (Nat.ne_of_gt (Nat.zero_lt_of_lt hn))
      exact heq fuel n
    · have := evictable_eq_zero (scanMin_eq_none.mp hnone)
      omega
    · -- a block below the sentinel goes, and its bytes are free now: the measure is the same
      have hx := (scanMin_mem hscan).resolve_left (by simp)
      rw [evictable_middle hx.2] at hsize
      have hlen : (l₁ ++ l₂).length = k := by
        simp only [List.length_append, List.length_cons] at hl ⊢
        omega
      obtain ⟨hdrains, m'', hends⟩ := ih hlen hac' (by omega)
      refine ⟨.evict hlt hac.rep (List.mem_map_of_mem hx.1) ?_ ?_ ?_ hdrains, m'', ?_⟩
      · exact ⟨_, fun fuel hfuel => (hround fuel hfuel).1⟩
      · exact ⟨_, fun fuel hfuel => (hround fuel hfuel).2.1⟩
      · have := (hac.sizes x hx.1).2
        omega
      · intro fuel n hfuel hn
        obtain ⟨n, rfl⟩ := Nat.exists_eq_succ_of_ne_zero (Nat.ne_of_gt (Nat.zero_lt_of_lt hn))
        rw [(hround fuel (by omega)).2.2 n]
        exact hends fuel n (by omega) (by omega)

theorem evictLoop_spins {size fuel : ℕ} : ∀ {n : ℕ} {l : List Block} {m : Mem}, Accounted m l →
    m.cache.slots + evictable l < size → l.length < fuel →
    evictLoop fuel size n m = .error .fuel
  | 0, _, _, _, _, _ => rfl
  | n + 1, l, m, hac, hsize, hfuel => by
      rcases @evictLoop_round m l size hac with ⟨hle, -⟩ | ⟨-, -, heq⟩ |
        ⟨-, x, l₁, l₂, m', hscan, rfl, hac', hslots, hround⟩
      · omega
      · rw [heq fuel n hfuel]
        exact evictLoop_spins hac hsize hfuel
      · have hx := (scanMin_mem hscan).resolve_left (by simp)
        rw [evictable_middle hx.2] at hsize
        rw [(hround fuel hfuel).2.2 n]
        refine evictLoop_spins hac' (by omega) ?_
        simp only [List.length_append, List.length_cons] at hfuel ⊢
        omega

/-- In every cache the proxy can reach, the eviction loop of an insertion makes progress to its end
    iff the new object fits into the free bytes and the bytes of the blocks with ages below `MIN`;
    otherwise it spins. -/
theorem eviction_ends_iff {p : Proxy} (hp : sections.Reachable p) (size : ℕ) :
    ∃ l, Rep p.mem l ∧ (∀ l', Rep p.mem l' → l' = l) ∧
      (Drains size p.mem ∧ Finishes size p.mem ↔ size ≤ p.mem.cache.slots + evictable l) ∧
      (p.mem.cache.slots + evictable l < size → Spins size p.mem) := by
  obtain ⟨l, hok⟩ := cacheOk_reachable hp
  have hspins : p.mem.cache.slots + evictable l < size → Spins size p.mem := fun hlt =>
    ⟨l.length + 1, fun fuel hfuel n => evictLoop_spins hok.accounted hlt (by omega)⟩
  refine ⟨l, hok.rep, fun l' hr => hr.unique hok.rep, ⟨fun ⟨_, hends⟩ => ?_, fun hle => ?_⟩, hspins⟩
  · rcases Nat.lt_or_ge (p.mem.cache.slots + evictable l) size with hlt | hle
    · exact absurd (hspins hlt) hends.not_spins
    · exact hle
  · obtain ⟨hdrains, m', hends⟩ := evictLoop_ends rfl hok.accounted hle
    exact ⟨hdrains, m', l.length + 1, fun fuel hfuel => hends fuel fuel hfuel hfuel⟩

/-- On a fresh cache every object of legal size goes in at once. -/
theorem eviction_ends_boot : ∃ l, Rep boot.mem l ∧
    (Drains MAX_OBJECT_SIZE boot.mem ∧ Finishes MAX_OBJECT_SIZE boot.mem) := by
  obtain ⟨l, hrep, -, hiff, -⟩ := eviction_ends_iff (System.reachable_init rfl) MAX_OBJECT_SIZE
  refine ⟨l, hrep, hiff.mpr ?_⟩
  have hslots : boot.mem.cache.slots = 1024 * 1024 := rfl
  have hmax : MAX_OBJECT_SIZE = 100 * 1024 := rfl
  omega

/-! ### A run into the spinning region -/

/-- Hits on the only block stamp it with the time they are made at. -/
theorem hits_run {a : Ptr} : ∀ {n : ℕ} {e : Entry} {p : Proxy}, CacheOk p.mem [(a, e)] →
    e.age = p.time_count → p.time_count + n < 2 ^ 64 →
    ∃ p', sections.Run p (List.replicate n (.lookup e.uri (some e.obj))) p' ∧
      p'.time_count = p.time_count + n ∧ CacheOk p'.mem [(a, { e with age := p'.time_count })]
  | 0, e, p, hok, hage, _ => ⟨p, .nil p, rfl, by rw [← hage]; exact hok⟩
  | n + 1, e, p, hok, hage, htime => by
      have hadd : addSize p.time_count 1 = p.time_count + 1 := by
        simp only [addSize]; omega
      have hok₀ : CacheOk p.mem ([] ++ (a, e) :: []) := hok
      obtain ⟨p₁, hstep, htime₁, hok₁⟩ := hit_step hok₀
      rw [hadd] at hok₁ htime₁
      have hrest := @hits_run a n { e with age := p.time_count + 1 } p₁ hok₁ htime₁.symm (by omega)
      obtain ⟨p₂, hrun, htime₂, hok₂⟩ := hrest
      refine ⟨p₂, ?_, by omega, hok₂⟩
      rw [List.replicate_succ]
      exact .cons hstep hrun

/-- URI of a page, by number. -/
def page (k : ℕ) : Bytes := List.replicate (k + 1) 97

/-- An object of the largest size that is cached. -/
def big : Bytes := List.replicate MAX_OBJECT_SIZE 0

def insertPage (k : ℕ) : Section := .insert (page k) big (k + 1)

/-- One page inserted and hit `MIN` times, then nine more inserted. -/
def spin : List Section :=
  insertPage 0 :: (List.replicate MIN (.lookup (page 0) (some big)) ++
    (List.range' 1 9).map insertPage)

/-- The first `k` pages are cached, all with ages from `MIN` on. -/
def Filled (k : ℕ) (p : Proxy) : Prop :=
  p.time_count = MIN + k ∧ ∃ l, CacheOk p.mem l ∧ l.length = k ∧
    ∀ x ∈ l, MIN ≤ x.2.age ∧ x.2.size = MAX_OBJECT_SIZE ∧ ∃ j < k, x.1 = j + 1 ∧ x.2.uri = page j

theorem page_injective : page.Injective := fun j k h => by
  have := congrArg List.length h
  simp only [page, List.length_replicate] at this
  omega

theorem stored_eq_mul {n : ℕ} : ∀ {l : List Block}, (∀ x ∈ l, x.2.size = n) →
    stored l = l.length * n
  | [], _ => by simp [stored]
  | x :: l, h => by
      have ih := stored_eq_mul fun y hy => h y (List.mem_cons_of_mem x hy)
      rw [stored_cons, ih, h x (by simp), List.length_cons, Nat.succ_mul, Nat.add_comm]

theorem big_length : big.length = MAX_OBJECT_SIZE := List.length_replicate

/-- The next page fits while fewer than ten are cached. -/
theorem Filled.insert {k : ℕ} {p : Proxy} (h : Filled k p) (hk : k < 10) :
    ∃ p', sections.step p (insertPage k) p' ∧ Filled (k + 1) p' := by
  obtain ⟨htime, l, hok, hlen, hall⟩ := h
  have hstored := stored_eq_mul fun x hx => (hall x hx).2.1
  have htotal := hok.total
  have hM : MIN = 100000000 := rfl
  have hmax : MAX_OBJECT_SIZE = 100 * 1024 := rfl
  have hcap : MAX_CACHE_SIZE = 1024 * 1024 := rfl
  have hadd : addSize p.time_count 1 = MIN + (k + 1) := by
    simp only [addSize, htime]; omega
  have hmiss : ∀ x ∈ l, x.2.uri ≠ page k := by
    rintro x hx heq
    obtain ⟨-, -, j, hj, -, hu⟩ := hall x hx
    exact hj.ne (page_injective (hu.symm.trans heq))
  have hfree : ∀ x ∈ l, x.1 ≠ k + 1 := by
    rintro x hx heq
    obtain ⟨-, -, j, hj, ha, -⟩ := hall x hx
    exact hj.ne (Nat.succ_injective (ha.symm.trans heq))
  have hfit : big.length ≤ p.mem.cache.slots := by
    rw [hlen, hmax] at hstored
    rw [big_length]
    omega
  obtain ⟨p', hstep, htime', hok'⟩ := insert_step hok (page k) big (k + 1)
    (by rw [big_length]; omega) hmiss hfit (Nat.succ_ne_zero k) hfree
  refine ⟨p', hstep, by rw [htime', hadd], _, hok', by simp [hlen], ?_⟩
  rintro x hx
  rcases List.mem_cons.mp hx with rfl | hx
  · exact ⟨by simp only [entry, hadd]; omega, big_length, k, by omega, rfl, rfl⟩
  · obtain ⟨hage, hsize, j, hj, hx⟩ := hall x hx
    exact ⟨hage, hsize, j, by omega, hx⟩

theorem Filled.inserts {k : ℕ} : ∀ {n : ℕ} {p : Proxy}, Filled n p → n + k ≤ 10 →
    ∃ p', sections.Run p ((List.range' n k).map insertPage) p' ∧ Filled (n + k) p' := by
  induction k with
  | zero => exact fun h _ => ⟨_, .nil _, h⟩
  | succ k ih =>
    intro n p h hle
    obtain ⟨p₁, hstep, h₁⟩ := h.insert (by omega)
    obtain ⟨p₂, hrun, h₂⟩ := ih h₁ (by omega)
    refine ⟨p₂, ?_, by rw [show n + (k + 1) = n + 1 + k by omega]; exact h₂⟩
    rw [List.range'_succ, List.map_cons]
    exact .cons hstep hrun

/-- After `spin` the ten cached pages have ages from `MIN` on, and an eleventh object of the largest
    size sends `add_to_cache` round its eviction loop for ever. -/
theorem spin_spins : ∃ p, p.time_count = MIN + 10 ∧ sections.Run boot spin p ∧
    Spins MAX_OBJECT_SIZE p.mem ∧ ¬ Finishes MAX_OBJECT_SIZE p.mem := by
  have hM : MIN = 100000000 := rfl
  have hmax : MAX_OBJECT_SIZE = 100 * 1024 := rfl
  have hcap : MAX_CACHE_SIZE = 1024 * 1024 := rfl
  obtain ⟨p₁, hins, htime₁, hok₁⟩ := insert_step (p := boot) cacheOk_init (page 0) big 1
    (by rw [big_length]; omega) (by simp)
    (by rw [big_length]; exact (by decide : MAX_OBJECT_SIZE ≤ MAX_CACHE_SIZE)) (by decide) (by simp)
  have htime₁' : p₁.time_count = 1 := htime₁
  obtain ⟨p₂, hhits, htime₂, hok₂⟩ := hits_run (n := MIN) hok₁ htime₁.symm (by omega)
  have hfilled : Filled 1 p₂ := by
    refine ⟨by omega, _, hok₂, rfl, ?_⟩
    rintro x hx
    obtain rfl := List.mem_singleton.mp hx
    exact ⟨by simp only; omega, big_length, 0, by omega, rfl, rfl⟩
  obtain ⟨p₃, hfill, htime₃, l, hok₃, hlen, hall⟩ := hfilled.inserts (k := 9) (by omega)
  have hspins : Spins MAX_OBJECT_SIZE p₃.mem := by
    have hstored := stored_eq_mul fun x hx => (hall x hx).2.1
    rw [hlen, hmax] at hstored
    have hev := evictable_eq_zero fun x hx => (hall x hx).1
    have htotal := hok₃.total
    exact ⟨l.length + 1, fun fuel hfuel n => evictLoop_spins hok₃.accounted (by omega) (by omega)⟩
  exact ⟨p₃, htime₃, .cons hins (hhits.append hfill), hspins, fun h => h.not_spins hspins⟩

end Labs.WebCache
