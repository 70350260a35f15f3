import SystemsLabs.Proxylab.CacheRun

/-! @lab proxylab | file:cache.c | scheme:recency | main result:the web cache is a byte-bounded LRU map

    The reference is a map kept in recency order, most recent pair first. A hit moves its pair to the
    front; a miss drops as few pairs as possible from the back until the new object fits into
    `MAX_CACHE_SIZE`, then puts the new pair in front. The pointer program keeps insertion order and
    ages instead: while the ages stay below the sentinel `MIN`, its blocks ordered by age are the
    reference list, because every age scan picks the last block of that order. -/

namespace Labs.WebCache
open Schemes

/-- URI and object, most recently used first. -/
abbrev Ref := List (Bytes × Bytes)

/-- One access to the reference map, with what a hit serves. -/
def refAccess (r : Ref) (x : Access) : Ref × Option Bytes :=
  match r.find? (·.1 = x.uri) with
  | some e => (touch r e, some e.2)
  | none => ((x.uri, x.obj) :: fit (·.2.length) (MAX_CACHE_SIZE - x.obj.length) r, none)

theorem refAccess_hit {r : Ref} {x : Access} {e : Bytes × Bytes}
    (h : r.find? (·.1 = x.uri) = some e) : refAccess r x = (touch r e, some e.2) := by
  simp only [refAccess, h]

theorem refAccess_miss {r : Ref} {x : Access} (h : r.find? (·.1 = x.uri) = none) :
    refAccess r x =
      ((x.uri, x.obj) :: fit (·.2.length) (MAX_CACHE_SIZE - x.obj.length) r, none) := by
  simp only [refAccess, h]

def refAccesses : Ref → List Access → Ref × List (Option Bytes)
  | r, [] => (r, [])
  | r, x :: xs =>
    let (r, served) := refAccess r x
    let (r, rest) := refAccesses r xs
    (r, served :: rest)

def pair (x : Block) : Bytes × Bytes := (x.2.uri, x.2.obj)

/-- The blocks of the cache in recency order, and the reference they stand for. -/
structure Lru (p : Proxy) (l rs : List Block) (r : Ref) : Prop where
  ok : CacheOk p.mem l
  order : Ordered (fun x : Block => x.2.age) p.time_count l rs
  pairs : rs.map pair = r

theorem lru_boot : Lru boot [] [] [] := ⟨cacheOk_init, ordered_nil, rfl⟩

/-! ### Eviction takes the last block of the recency order -/

theorem evictLoop_fit {fuel size now : ℕ} (hsize : size ≤ MAX_CACHE_SIZE) (hnow : now < MIN) :
    ∀ {rs l : List Block} {m : Mem} {n : ℕ}, Accounted m l →
    Ordered (fun x : Block => x.2.age) now l rs → l.length < fuel → l.length < n →
    ∃ m' l', evictLoop fuel size n m = .ok m' ∧ Accounted m' l' ∧ size ≤ m'.cache.slots ∧
      l'.Sublist l ∧
      Ordered (fun x : Block => x.2.age) now l' (fit (·.2.size) (MAX_CACHE_SIZE - size) rs) := by
  intro rs
  induction rs using List.reverseRecOn with
  | nil =>
    intro l m n hac ho hfuel hn
    obtain rfl : l = [] := List.nil_perm.mp ho.perm
    obtain ⟨n, rfl⟩ := Nat.exists_eq_succ_of_ne_zero (Nat.ne_of_gt (Nat.zero_lt_of_lt hn))
    have htotal : m.cache.slots = MAX_CACHE_SIZE := by simpa [stored] using hac.total
    rcases evictLoop_round hac with ⟨hle, hrun⟩ | ⟨hlt, -⟩ | ⟨hlt, -⟩
    · exact ⟨m, [], hrun fuel n, hac, hle, .refl _, by simpa [fit] using ordered_nil⟩
    · omega
    · omega
  | append_singleton r₀ x ih =>
    intro l m n hac ho hfuel hn
    obtain ⟨n, rfl⟩ := Nat.exists_eq_succ_of_ne_zero (Nat.ne_of_gt (Nat.zero_lt_of_lt hn))
    have hstored : ((r₀ ++ [x]).map (·.2.size)).sum = stored l := stored_perm ho.perm
    have htotal := hac.total
    have hx : x ∈ l := ho.perm.mem_iff.mp (by simp)
    have hmin : x.2.age < MIN := lt_of_le_of_lt (ho.le x (by simp)) hnow
    have hscan : scanMin (fun y : Block => y.2.age) l MIN none = some x :=
      scanMin_of_least hx hmin ho.lt_of_ne_last
    rcases evictLoop_round hac with ⟨hle, hrun⟩ | ⟨-, hnone, -⟩ |
      ⟨hlt, y, l₁, l₂, m', hy, rfl, hac', hslots, hrun⟩
    · refine ⟨m, l, hrun fuel n, hac, hle, .refl _, ?_⟩
      rw [fit_of_le (by rw [hstored]; omega)]
      exact ho
    · rw [hscan] at hnone; cases hnone
    · obtain rfl : x = y := Option.some.inj (hscan.symm.trans hy)
      obtain ⟨-, -, hround⟩ := hrun fuel hfuel
      have ho' : Ordered (fun x : Block => x.2.age) now (l₁ ++ l₂) (r₀ ++ []) := Ordered.remove ho
      rw [List.append_nil] at ho'
      simp only [List.length_append, List.length_cons] at hfuel hn ⊢
      have hlt' : (l₁ ++ l₂).length < n ∧ (l₁ ++ l₂).length < fuel := by
        rw [List.length_append]; omega
      obtain ⟨m'', l'', hrun', hac'', hfits, hsub, ho''⟩ := ih hac' ho' hlt'.2 hlt'.1
      refine ⟨m'', l'', (hround n).trans hrun', hac'', hfits, ?_, ?_⟩
      · exact hsub.trans (List.Sublist.append_left (List.sublist_cons_self _ _) _)
      · rw [fit_concat (by rw [hstored]; omega)]
        exact ho''

/-! ### One access -/

section Access
variable {p : Proxy} {l rs : List Block} {r : Ref} {x : Access} {fuel : ℕ}

theorem Lru.find (h : Lru p l rs r) (uri : Bytes) :
    r.find? (·.1 = uri) = (rs.find? (·.2.uri = uri)).map pair := by
  rw [← h.pairs, List.find?_map]
  rfl

theorem Lru.keys (h : Lru p l rs r) : (rs.map (·.2.uri)).Nodup :=
  ((h.order.perm.map _).nodup_iff).mpr h.ok.keys

theorem next_time (ht : p.time_count < MIN) :
    addSize p.time_count 1 = p.time_count + 1 := by
  have hM : MIN = 100000000 := rfl
  simp only [addSize]
  omega

/-- A hit moves its pair to the front of the reference and serves the stored object. -/
theorem Lru.hit (h : Lru p l rs r) (ht : p.time_count < MIN) (hfuel : l.length < fuel) {b : Block}
    (hb : b ∈ l) (hu : b.2.uri = x.uri) :
    ∃ p' l' rs', access fuel p x = .ok (p', (refAccess r x).2) ∧
      Lru p' l' rs' (refAccess r x).1 ∧ p'.time_count = p.time_count + 1 ∧
      l'.length = l.length := by
  obtain ⟨l₁, l₂, rfl⟩ := List.append_of_mem hb
  obtain ⟨r₁, r₂, rfl⟩ := List.append_of_mem (h.order.perm.mem_iff.mpr hb)
  obtain ⟨m', hok, hrun⟩ := lookup_hit h.ok
  have hrun := hrun fuel hfuel
  have hfind : r.find? (·.1 = x.uri) = some (pair b) := by
    rw [h.find, ← hu, find_stored h.keys]; rfl
  have hout : pair b ∉ r₁.map pair := by
    intro hm
    obtain ⟨c, hc, hcb⟩ := List.mem_map.mp hm
    have hk := h.keys
    rw [List.map_append, List.map_cons, List.nodup_append] at hk
    exact hk.2.2 _ (List.mem_map_of_mem hc) _ (List.mem_cons_self ..) (congrArg Prod.fst hcb)
  rw [next_time ht] at hrun hok
  refine ⟨⟨m', p.time_count + 1⟩, _, stamp b (p.time_count + 1) :: (r₁ ++ r₂), ?_,
    ⟨hok, h.order.remove.insert rfl (Nat.lt_succ_self _), ?_⟩, rfl, by simp⟩
  · rw [access, ← hu, hrun, ok_bind, refAccess_hit hfind]
    rfl
  · have hsplit : (r₁ ++ b :: r₂).map pair = r₁.map pair ++ pair b :: r₂.map pair := by simp
    rw [refAccess_hit hfind, ← h.pairs, hsplit, touch_middle hout, List.map_cons, List.map_append]
    rfl

/-- A miss evicts and inserts as the reference does, unless `Malloc` ends the process. -/
theorem Lru.miss (h : Lru p l rs r) (ht : p.time_count < MIN) (hfuel : l.length + 1 < fuel)
    (hobj : 1 ≤ x.obj.length ∧ x.obj.length ≤ MAX_OBJECT_SIZE) (hmiss : ∀ b ∈ l, b.2.uri ≠ x.uri) :
    access fuel p x = .error .exit ∨
    ∃ p' l' rs', access fuel p x = .ok (p', (refAccess r x).2) ∧
      Lru p' l' rs' (refAccess r x).1 ∧ p'.time_count = p.time_count + 1 ∧
      l'.length ≤ l.length + 1 := by
  have hcap : x.obj.length ≤ MAX_CACHE_SIZE := hobj.2.trans (by decide)
  obtain ⟨m', l', hrun, hac, hfits, hsub, ho⟩ := evictLoop_fit hcap ht h.ok.accounted h.order
    (by omega : l.length < fuel) (by omega : l.length < fuel)
  have hok := hac.keyed (h.ok.keys.sublist (hsub.map _))
  have hfind : r.find? (·.1 = x.uri) = none := by
    rw [h.find, find_none_iff.mpr fun b hb => hmiss b (h.order.perm.mem_iff.mp hb)]; rfl
  have hsame : ∀ b ∈ rs, (pair b).2.length = b.2.size := fun b hb =>
    (h.ok.sizes b (h.order.perm.mem_iff.mp hb)).1
  have hstep : access fuel p x = (do
      let m ← push m' x.elem (entry x.uri x.obj (p.time_count + 1))
      return (⟨m, p.time_count + 1⟩, none)) := by
    rw [access, lookup_miss h.ok (by omega) hmiss, ok_bind]
    simp only
    rw [insert_absent h.ok (by omega) hmiss, hrun, ok_bind, next_time ht]
    cases push m' x.elem (entry x.uri x.obj (p.time_count + 1)) <;> rfl
  rw [hstep]
  rcases em (x.elem = NULL ∨ (m'.heap x.elem).isSome = true) with hbad | hgood
  · left; rw [push, if_pos hbad]; rfl
  · right
    rw [not_or, Bool.not_eq_true, Option.isSome_eq_false_iff, Option.isNone_iff_eq_none] at hgood
    obtain ⟨m'', hpush, hok'⟩ := hok.push hgood.1 hgood.2 (e := entry x.uri x.obj (p.time_count + 1))
      hfits ⟨rfl, hobj.1⟩ fun b hb => hmiss b (hsub.subset hb)
    have ho₀ : Ordered (fun x : Block => x.2.age) p.time_count ([] ++ l') _ := ho
    have ho' := ho₀.insert (x := (x.elem, entry x.uri x.obj (p.time_count + 1))) rfl
      (Nat.lt_succ_self _)
    refine ⟨⟨m'', p.time_count + 1⟩, _, _, ?_, ⟨hok', ho', ?_⟩, rfl, by simpa using hsub.length_le⟩
    · rw [hpush, refAccess_miss hfind]; rfl
    · rw [refAccess_miss hfind, List.map_cons, ← h.pairs, fit_map, fit_congr hsame]
      rfl

/-- Step lemma: an access takes the reference's step. -/
theorem Lru.access (h : Lru p l rs r) (ht : p.time_count < MIN) (hfuel : l.length + 1 < fuel)
    (hobj : 1 ≤ x.obj.length ∧ x.obj.length ≤ MAX_OBJECT_SIZE) :
    access fuel p x = .error .exit ∨
    ∃ p' l' rs', access fuel p x = .ok (p', (refAccess r x).2) ∧
      Lru p' l' rs' (refAccess r x).1 ∧ p'.time_count = p.time_count + 1 ∧
      l'.length ≤ l.length + 1 := by
  rcases em (∃ b ∈ l, b.2.uri = x.uri) with ⟨b, hb, hu⟩ | hmiss
  · obtain ⟨p', l', rs', hrun, hl, htime, hlen⟩ := h.hit ht (by omega : l.length < fuel) hb hu
    exact Or.inr ⟨p', l', rs', hrun, hl, htime, by omega⟩
  · exact h.miss ht hfuel hobj fun b hb hu => hmiss ⟨b, hb, hu⟩

end Access

/-- Run lemma: a sequence of accesses takes the reference's steps, unless `Malloc` fails. -/
theorem lru_accesses {fuel : ℕ} : ∀ {xs : List Access} {p : Proxy} {l rs : List Block} {r : Ref},
    Lru p l rs r → p.time_count + xs.length ≤ MIN → l.length + xs.length < fuel →
    (∀ x ∈ xs, 1 ≤ x.obj.length ∧ x.obj.length ≤ MAX_OBJECT_SIZE) →
    accesses fuel p xs = .error .exit ∨
    ∃ p' l' rs', accesses fuel p xs = .ok (p', (refAccesses r xs).2) ∧
      Lru p' l' rs' (refAccesses r xs).1
  | [], p, l, rs, r, h, _, _, _ => Or.inr ⟨p, l, rs, rfl, h⟩
  | x :: xs, p, l, rs, r, h, htime, hfuel, hobj => by
      rw [List.length_cons] at htime hfuel
      have hstep := h.access (by omega) (by omega : l.length + 1 < fuel) (hobj x (by simp))
      rcases hstep with hexit | ⟨p', l', rs', hrun, h', ht', hlen⟩
      · left; rw [accesses, hexit]; rfl
      · have hrest := lru_accesses h' (by omega : p'.time_count + xs.length ≤ MIN)
          (by omega : l'.length + xs.length < fuel) fun y hy => hobj y (List.mem_cons_of_mem _ hy)
        rcases hrest with hexit | ⟨p'', l'', rs'', hrun', h''⟩
        · left; rw [accesses, hrun, ok_bind]; simp only; rw [hexit]; rfl
        · right
          refine ⟨p'', l'', rs'', ?_, h''⟩
          rw [accesses, hrun, ok_bind]
          simp only
          rw [hrun', ok_bind]
          rfl

/-! ### What a hit serves -/

/-- Object stored by the latest insertion of `uri` in a history of accesses and their outcomes. -/
def inserted (hist : List (Access × Option Bytes)) (uri : Bytes) : Option Bytes :=
  (hist.reverse.find? fun h => h.1.uri = uri ∧ h.2 = none).map (·.1.obj)

theorem inserted_concat (hist : List (Access × Option Bytes)) (x : Access) (served : Option Bytes)
    (uri : Bytes) : inserted (hist ++ [(x, served)]) uri =
      if x.uri = uri ∧ served = none then some x.obj else inserted hist uri := by
  simp only [inserted, List.reverse_append, List.reverse_singleton, List.singleton_append,
    List.find?_cons]
  split <;> simp_all

/-- Every pair of the reference was stored by the latest insertion of its URI. -/
def Genuine (hist : List (Access × Option Bytes)) (r : Ref) : Prop :=
  ∀ e ∈ r, inserted hist e.1 = some e.2

theorem genuine_access {hist : List (Access × Option Bytes)} {r : Ref} (h : Genuine hist r)
    (x : Access) : Genuine (hist ++ [(x, (refAccess r x).2)]) (refAccess r x).1 := by
  rintro e he
  rw [inserted_concat]
  cases hfind : r.find? (·.1 = x.uri) with
  | some e' =>
    rw [refAccess_hit hfind] at he ⊢
    have hmem : e ∈ r := by
      rcases mem_touch.mp he with rfl | he
      · exact List.mem_of_find?_eq_some hfind
      · exact he
    rw [if_neg (by simp)]
    exact h e hmem
  | none =>
    rw [refAccess_miss hfind] at he ⊢
    rcases List.mem_cons.mp he with rfl | he
    · rw [if_pos ⟨rfl, rfl⟩]
    · have hmem := fit_sublist.subset he
      have hne : ¬ x.uri = e.1 := by
        have := List.find?_eq_none.mp hfind e hmem
        simpa [eq_comm] using this
      rw [if_neg (by simp [hne])]
      exact h e hmem

/-- In every run of the reference, a hit serves what the latest insertion of its URI stored. -/
theorem genuine_served : ∀ (xs : List Access) {hist : List (Access × Option Bytes)} {r : Ref},
    Genuine hist r → ∀ i x b, xs[i]? = some x → (refAccesses r xs).2[i]? = some (some b) →
      inserted (hist ++ (xs.zip (refAccesses r xs).2).take i) x.uri = some b
  | [], _, _, _, i, x, b, hx, _ => by simp at hx
  | y :: ys, hist, r, h, i, x, b, hx, hb => by
      cases i with
      | zero =>
        obtain rfl : y = x := by simpa using hx
        have hb' : (refAccess r y).2 = some b := by simpa [refAccesses] using hb
        cases hfind : r.find? (·.1 = y.uri) with
        | none => rw [refAccess_miss hfind] at hb'; cases hb'
        | some e =>
          rw [refAccess_hit hfind] at hb'
          obtain rfl : e.2 = b := Option.some.inj hb'
          have hu : e.1 = y.uri := by simpa using List.find?_some hfind
          simpa [hu] using h e (List.mem_of_find?_eq_some hfind)
      | succ i =>
        have hrec := genuine_served ys (genuine_access h y) i x b (by simpa using hx)
          (by simpa [refAccesses] using hb)
        simpa [refAccesses, List.append_assoc] using hrec

/-- The web cache refines the byte-bounded LRU map: for any sequence of at most `MIN` accesses to a
    fresh cache in which `Malloc` does not fail, the run terminates, the list holds exactly the pairs
    of the reference, it hits exactly when the reference does, and a hit serves the bytes that the
    latest insertion of the URI stored. -/
theorem cache_refines_lru (xs : List Access) (hlen : xs.length ≤ MIN)
    (hobj : ∀ x ∈ xs, 1 ≤ x.obj.length ∧ x.obj.length ≤ MAX_OBJECT_SIZE)
    (fuel : ℕ) (hfuel : xs.length < fuel) (hmem : accesses fuel boot xs ≠ .error .exit) :
    ∃ p l, accesses fuel boot xs = .ok (p, (refAccesses [] xs).2) ∧ Rep p.mem l ∧
      (l.map pair).Perm (refAccesses [] xs).1 ∧
      ∀ i x b, xs[i]? = some x → (refAccesses [] xs).2[i]? = some (some b) →
        inserted ((xs.zip (refAccesses [] xs).2).take i) x.uri = some b := by
  have hfuel' : ([] : List Block).length + xs.length < fuel := by simpa using hfuel
  have hrun := lru_accesses lru_boot (by simpa [boot] using hlen) hfuel' hobj
  rcases hrun with hexit | ⟨p, l, rs, hok, h⟩
  · exact absurd hexit hmem
  · refine ⟨p, l, hok, h.ok.rep, ?_, fun i x b hx hb => ?_⟩
    · rw [← h.pairs]
      exact (h.order.perm.map _).symm
    · have hg : Genuine [] [] := by rintro e he; simp at he
      simpa using genuine_served xs hg i x b hx hb

/-- Two insertions and a hit on the first: the hit serves its bytes and makes it the most recent. -/
theorem cache_refines_lru_hit : ∃ p l,
    accesses 5 boot [⟨[97], [7], 16⟩, ⟨[98], [8, 9], 32⟩, ⟨[97], [7], 48⟩] =
      .ok (p, [none, none, some [7]]) ∧ Rep p.mem l ∧
    (l.map pair).Perm [([97], [7]), ([98], [8, 9])] := by
  have hmem : accesses 5 boot [⟨[97], [7], 16⟩, ⟨[98], [8, 9], 32⟩, ⟨[97], [7], 48⟩] ≠
      .error .exit := by
    intro h
    have hok : (accesses 5 boot [⟨[97], [7], 16⟩, ⟨[98], [8, 9], 32⟩, ⟨[97], [7], 48⟩]).isOk =
        true := by rfl
    rw [h] at hok
    cases hok
  obtain ⟨p, l, hrun, hrep, hperm, -⟩ := cache_refines_lru
    [⟨[97], [7], 16⟩, ⟨[98], [8, 9], 32⟩, ⟨[97], [7], 48⟩] (by decide) (by decide) 5 (by decide) hmem
  exact ⟨p, l, hrun, hrep, hperm⟩
end Labs.WebCache
