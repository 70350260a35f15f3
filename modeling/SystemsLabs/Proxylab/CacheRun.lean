import SystemsLabs.Proxylab.CacheList
import Mathlib.Algebra.BigOperators.Group.List.Basic
import Mathlib.Algebra.Order.Ring.Nat

/-! @lab proxylab | file:cache.c, proxy.c (doit) | scheme:heap | main result:section spec lemmas

    What the critical sections of `doit` do to the list of blocks, with the accounting invariant
    `CacheOk`: free bytes plus stored bytes are `MAX_CACHE_SIZE`, every block stores a nonempty
    object of its recorded size, and no URI is stored twice. One round of the eviction loop is
    described once (`evictLoop_round`), for caches whose keys nobody looks at (`Accounted`);
    termination, the victim order and the exact condition for progress are all read off it. -/

namespace Labs.WebCache
open Schemes

/-- Bytes stored by a list of blocks. -/
def stored (l : List Block) : ℕ := (l.map (·.2.size)).sum

/-- Representation, accounting and keys of the cache. -/
structure CacheOk (m : Mem) (l : List Block) : Prop where
  rep : Rep m l
  total : m.cache.slots + stored l = MAX_CACHE_SIZE
  sizes : ∀ x ∈ l, x.2.obj.length = x.2.size ∧ 1 ≤ x.2.size
  keys : (l.map (·.2.uri)).Nodup

theorem cacheOk_init : CacheOk init_cache [] :=
  ⟨rep_init, rfl, by simp, by simp⟩

@[simp] theorem stored_cons (x : Block) (l : List Block) : stored (x :: l) = x.2.size + stored l := by
  simp [stored]

theorem stored_middle (l₁ l₂ : List Block) (x : Block) :
    stored (l₁ ++ x :: l₂) = x.2.size + stored (l₁ ++ l₂) := by
  simp only [stored, List.map_append, List.map_cons, List.sum_append, List.sum_cons]
  omega

theorem stored_perm {l l' : List Block} (h : l.Perm l') : stored l = stored l' :=
  (h.map _).sum_eq

/-- What is left of `CacheOk` when nobody looks at the keys. -/
structure Accounted (m : Mem) (l : List Block) : Prop where
  rep : Rep m l
  total : m.cache.slots + stored l = MAX_CACHE_SIZE
  sizes : ∀ x ∈ l, x.2.obj.length = x.2.size ∧ 1 ≤ x.2.size

theorem CacheOk.accounted {m : Mem} {l : List Block} (hok : CacheOk m l) : Accounted m l :=
  ⟨hok.rep, hok.total, hok.sizes⟩

theorem Accounted.keyed {m : Mem} {l : List Block} (hac : Accounted m l)
    (hkeys : (l.map (·.2.uri)).Nodup) : CacheOk m l :=
  ⟨hac.rep, hac.total, hac.sizes, hkeys⟩

/-- A removal keeps the accounting and frees the block's bytes. -/
theorem Accounted.remove {m : Mem} {l₁ l₂ : List Block} {x : Block}
    (hac : Accounted m (l₁ ++ x :: l₂)) :
    ∃ m', Accounted m' (l₁ ++ l₂) ∧ m'.cache.slots = m.cache.slots + x.2.size ∧
      ∀ fuel, (l₁ ++ x :: l₂).length < fuel → remove_from_cache fuel m x.1 = .ok m' := by
  obtain ⟨a, e⟩ := x
  obtain ⟨m', hrep, hslots, hrun⟩ := remove_from_cache_spec hac.rep
  have htotal := hac.total
  rw [stored_middle] at htotal
  have hsub : (l₁ ++ l₂).Sublist (l₁ ++ (a, e) :: l₂) :=
    List.Sublist.append_left (List.sublist_cons_self _ _) _
  have hadd : addSize m.cache.slots e.size = m.cache.slots + e.size := by
    simp only [addSize, MAX_CACHE_SIZE] at *; omega
  refine ⟨m', ⟨hrep, ?_, fun x hx => hac.sizes x (hsub.subset hx)⟩, by rw [hslots, hadd], hrun⟩
  rw [hslots, hadd]
  simp only at htotal
  omega

/-- An insertion that fits keeps the accounting. -/
theorem Accounted.push {m : Mem} {l : List Block} (hac : Accounted m l) {elem : Ptr} {e : Entry}
    (h0 : elem ≠ NULL) (hfree : m.heap elem = none) (hfit : e.size ≤ m.cache.slots)
    (hsize : e.obj.length = e.size ∧ 1 ≤ e.size) :
    ∃ m', push m elem e = .ok m' ∧ Accounted m' ((elem, e) :: l) := by
  obtain ⟨m', hrun, hrep, hslots⟩ := push_spec hac.rep e h0 hfree
  have htotal := hac.total
  have hsub : subSize m.cache.slots e.size = m.cache.slots - e.size := by
    simp only [subSize, MAX_CACHE_SIZE] at *; omega
  refine ⟨m', hrun, hrep, ?_, ?_⟩
  · rw [hslots, hsub, stored_cons]; simp only; omega
  · rintro x hx
    rcases List.mem_cons.mp hx with rfl | hx
    · exact hsize
    · exact hac.sizes x hx

theorem CacheOk.push {m : Mem} {l : List Block} (hok : CacheOk m l) {elem : Ptr} {e : Entry}
    (h0 : elem ≠ NULL) (hfree : m.heap elem = none) (hfit : e.size ≤ m.cache.slots)
    (hsize : e.obj.length = e.size ∧ 1 ≤ e.size) (hkey : ∀ x ∈ l, x.2.uri ≠ e.uri) :
    ∃ m', push m elem e = .ok m' ∧ CacheOk m' ((elem, e) :: l) := by
  obtain ⟨m', hrun, hac⟩ := hok.accounted.push h0 hfree hfit hsize
  refine ⟨m', hrun, hac.keyed ?_⟩
  rw [List.map_cons, List.nodup_cons]
  refine ⟨?_, hok.keys⟩
  rintro hm
  obtain ⟨x, hx, hxe⟩ := List.mem_map.mp hm
  exact hkey x hx hxe

/-! ### The eviction loop -/

/-- One round of the loop: done, stuck with no candidate, or one block of the list evicted. -/
theorem evictLoop_round {m : Mem} {l : List Block} {size : ℕ} (hac : Accounted m l) :
    (size ≤ m.cache.slots ∧ ∀ fuel n, evictLoop fuel size (n + 1) m = .ok m) ∨
    (m.cache.slots < size ∧ scanMin (·.2.age) l MIN none = none ∧
      ∀ fuel n, l.length < fuel → evictLoop fuel size (n + 1) m = evictLoop fuel size n m) ∨
    (m.cache.slots < size ∧ ∃ x l₁ l₂ m', scanMin (·.2.age) l MIN none = some x ∧
      l = l₁ ++ x :: l₂ ∧ Accounted m' (l₁ ++ l₂) ∧ m'.cache.slots = m.cache.slots + x.2.size ∧
      ∀ fuel, l.length < fuel → evict_age fuel m = .ok x.1 ∧
        remove_from_cache fuel m x.1 = .ok m' ∧
        ∀ n, evictLoop fuel size (n + 1) m = evictLoop fuel size n m') := by
  rcases Nat.lt_or_ge m.cache.slots size with hlt | hge
  · cases hscan : scanMin (·.2.age) l MIN none with
    | none =>
      refine Or.inr (Or.inl ⟨hlt, rfl, fun fuel n hfuel => ?_⟩)
      have hage := evict_age_spec hac.rep hfuel
      rw [hscan] at hage
      rw [evictLoop, if_pos hlt, hage, ok_bind, if_neg (by simp), ok_bind]
    | some x =>
      have hx : x ∈ l := ((scanMin_mem hscan).resolve_left (by simp)).1
      obtain ⟨l₁, l₂, rfl⟩ := List.append_of_mem hx
      obtain ⟨m', hac', hslots, hrun⟩ := hac.remove
      refine Or.inr (Or.inr ⟨hlt, x, l₁, l₂, m', rfl, rfl, hac', hslots, fun fuel hfuel => ?_⟩)
      have hage := evict_age_spec hac.rep hfuel
      rw [hscan] at hage
      have hnn : x.1 ≠ NULL := hac.rep.nonnull x.1 (List.mem_map_of_mem hx)
      refine ⟨hage, hrun fuel hfuel, fun n => ?_⟩
      rw [evictLoop, if_pos hlt, hage, ok_bind]
      simp only [Option.map_some, Option.getD_some]
      rw [if_pos hnn, hrun fuel hfuel, ok_bind]
  · exact Or.inl ⟨hge, fun fuel n => by rw [evictLoop, if_neg (by omega)]⟩

/-- When the eviction loop ends, the object fits and the remaining blocks are some of the old. -/
theorem Accounted.evicted {fuel size : ℕ} : ∀ {n : ℕ} {m m' : Mem} {l : List Block},
    Accounted m l → l.length < fuel → evictLoop fuel size n m = .ok m' →
    ∃ l', Accounted m' l' ∧ l'.Sublist l ∧ size ≤ m'.cache.slots
  | 0, m, m', l, _, _, hrun => by rw [evictLoop] at hrun; cases hrun
  | n + 1, m, m', l, hac, hfuel, hrun => by
      rcases evictLoop_round hac with ⟨hle, heq⟩ | ⟨-, -, heq⟩ |
        ⟨-, x, l₁, l₂, m₁, -, rfl, hac₁, -, heq⟩
      · obtain rfl : m = m' := Except.ok.inj ((heq fuel n).symm.trans hrun)
        exact ⟨l, hac, List.Sublist.refl l, hle⟩
      · exact hac.evicted hfuel ((heq fuel n hfuel).symm.trans hrun)
      · have hsub : (l₁ ++ l₂).Sublist (l₁ ++ x :: l₂) :=
          List.Sublist.append_left (List.sublist_cons_self _ _) _
        obtain ⟨l', hac', hsub', hle⟩ :=
          hac₁.evicted (lt_of_le_of_lt hsub.length_le hfuel)
            (((heq fuel hfuel).2.2 n).symm.trans hrun)
        exact ⟨l', hac', hsub'.trans hsub, hle⟩

/-! ### The sections -/

theorem find_none_iff {l : List Block} {uri : Bytes} :
    l.find? (·.2.uri = uri) = none ↔ ∀ x ∈ l, x.2.uri ≠ uri := by
  simp [List.find?_eq_none]

/-- A search for a stored URI finds its block. -/
theorem find_stored {l₁ l₂ : List Block} {x : Block}
    (hkeys : ((l₁ ++ x :: l₂).map (·.2.uri)).Nodup) :
    (l₁ ++ x :: l₂).find? (·.2.uri = x.2.uri) = some x := by
  rw [List.find?_append]
  have hnone : l₁.find? (·.2.uri = x.2.uri) = none := by
    rw [find_none_iff]
    intro y hy heq
    rw [List.map_append, List.map_cons, List.nodup_append] at hkeys
    exact hkeys.2.2 _ (List.mem_map_of_mem hy) _ (List.mem_cons_self ..) heq
  rw [hnone]
  simp

section Sections
variable {p : Proxy} {l l₁ l₂ : List Block} {x : Block} {fuel : ℕ} {uri : Bytes}

theorem lookup_miss (hok : CacheOk p.mem l) (hfuel : l.length < fuel)
    (hmiss : ∀ x ∈ l, x.2.uri ≠ uri) : lookupSection fuel p uri = .ok (p, none) := by
  rw [lookupSection, search_cache_spec hok.rep hfuel, find_none_iff.mpr hmiss, ok_bind,
    if_neg (by simp)]
  rfl

/-- The block with its age set. -/
def stamp (x : Block) (time : ℕ) : Block := (x.1, { x.2 with age := time })

theorem lookup_hit (hok : CacheOk p.mem (l₁ ++ x :: l₂)) :
    ∃ m', CacheOk m' (l₁ ++ stamp x (addSize p.time_count 1) :: l₂) ∧
      ∀ fuel, (l₁ ++ x :: l₂).length < fuel → lookupSection fuel p x.2.uri =
        .ok (⟨m', addSize p.time_count 1⟩, some x.2.obj) := by
  obtain ⟨a, e⟩ := x
  obtain ⟨m', hrun, hcache, hrep⟩ := read_response_spec hok.rep (addSize p.time_count 1)
  have hnn : a ≠ NULL := hok.rep.nonnull a (by simp)
  have hsize := (hok.sizes (a, e) (by simp)).1
  refine ⟨m', ⟨hrep, ?_, ?_, ?_⟩, fun fuel hfuel => ?_⟩
  · have htotal := hok.total
    rw [stored_middle] at htotal
    rw [hcache, stored_middle]
    exact htotal
  · rintro y hy
    rw [List.mem_append, List.mem_cons] at hy
    rcases hy with hy | rfl | hy
    · exact hok.sizes y (by simp [hy])
    · exact hok.sizes (a, e) (by simp)
    · exact hok.sizes y (by simp [hy])
  · simpa [stamp] using hok.keys
  · rw [lookupSection, search_cache_spec hok.rep hfuel, find_stored hok.keys, ok_bind]
    simp only [Option.map_some, Option.getD_some]
    rw [if_pos hnn, hrun, ok_bind, List.take_of_length_le hsize.le]
    rfl

theorem insert_present (hok : CacheOk p.mem (l₁ ++ x :: l₂))
    (hfuel : (l₁ ++ x :: l₂).length < fuel) (response : Bytes) (size : ℕ) (elem : Ptr) :
    insertSection fuel p x.2.uri response size elem = .ok p := by
  have hnn : x.1 ≠ NULL := hok.rep.nonnull x.1 (by simp)
  rw [insertSection, search_cache_spec hok.rep hfuel, find_stored hok.keys, ok_bind]
  simp only [Option.map_some, Option.getD_some]
  rw [if_neg hnn]
  rfl

/-- The entry an insertion stores. -/
def entry (uri response : Bytes) (time : ℕ) : Entry :=
  { uri := uri, obj := response, age := time, size := response.length }

theorem insert_absent (hok : CacheOk p.mem l) (hfuel : l.length < fuel)
    (hmiss : ∀ x ∈ l, x.2.uri ≠ uri) (response : Bytes) (elem : Ptr) :
    insertSection fuel p uri response response.length elem = (do
      let m ← evictLoop fuel response.length fuel p.mem
      let m ← push m elem (entry uri response (addSize p.time_count 1))
      return ⟨m, addSize p.time_count 1⟩) := by
  rw [insertSection, search_cache_spec hok.rep hfuel, find_none_iff.mpr hmiss, ok_bind,
    if_pos (by simp)]
  simp only [add_to_cache, List.take_length]
  cases evictLoop fuel response.length fuel p.mem with
  | error e => rfl
  | ok m => rfl

end Sections

end Labs.WebCache
