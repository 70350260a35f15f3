import SystemsLabs.Proxylab.Cache
import SystemsLabs.Schemes.Recency

/-! @lab proxylab | file:cache.c | scheme:heap | main result:the pointer program works on a list

    `Rep m l`: following `next` from the head visits the blocks of `l` in order and ends in `NULL`,
    and every `prev` link points to the block before. Each function of the cache has one spec lemma
    over this list: a search is a `find?`, the age scan is a `scanMin`, removal takes out exactly the
    given block whichever of only, first, middle or last it is, an insertion conses. `CacheOk` adds
    the accounting (free bytes and stored bytes make up `MAX_CACHE_SIZE`), so that no `size_t`
    operation of the cache wraps. -/

namespace Labs.WebCache
open Schemes

/-- A block of the list: its address and what it stores. -/
abbrev Block := Ptr × Entry

def Node.view (c : Node) : Ptr × Entry × Ptr := (c.prev, c.toEntry, c.next)

/-- The cache's list is `l`, from the head on, and no other node is allocated. -/
structure Rep (m : Mem) (l : List Block) : Prop where
  seg : ∃ last, DSeg Node.view m.heap NULL m.cache.head l last NULL
  nodup : (l.map Prod.fst).Nodup
  nonnull : ∀ a ∈ l.map Prod.fst, a ≠ NULL
  exact : ∀ a, (m.heap a).isSome → a ∈ l.map Prod.fst

theorem rep_init : Rep init_cache [] :=
  ⟨⟨NULL, rfl, rfl⟩, by simp, by simp, fun a ha => by simp [init_cache] at ha⟩

/-- First address of a list, or `NULL`. -/
def first (l : List Block) : Ptr := (l.head?.map Prod.fst).getD NULL

theorem dseg_head {heap : Heap Ptr Node} {prev p last : Ptr} {l : List Block}
    (hs : DSeg Node.view heap prev p l last NULL) : p = first l := by
  cases l with
  | nil => exact hs.2
  | cons x l => exact hs.1

theorem dseg_live {heap : Heap Ptr Node} {prev p last nxt : Ptr} {l : List Block}
    (hs : DSeg Node.view heap prev p l last nxt) : ∀ a ∈ l.map Prod.fst, (heap a).isSome := by
  induction l generalizing prev p with
  | nil => simp
  | cons x l ih =>
    obtain ⟨a, e⟩ := x
    obtain ⟨rfl, c, n, hc, hv, hs⟩ := hs
    rintro b hb
    rcases List.mem_cons.mp hb with rfl | hb
    · simp [hc]
    · exact ih hs b hb

theorem Rep.live {m : Mem} {l : List Block} (hr : Rep m l) :
    ∀ a ∈ l.map Prod.fst, (m.heap a).isSome := by
  obtain ⟨last, hs⟩ := hr.seg
  exact dseg_live hs

theorem Rep.unique {m : Mem} {l l' : List Block} (hr : Rep m l) (hr' : Rep m l') : l = l' := by
  obtain ⟨last, hs⟩ := hr.seg
  obtain ⟨last', hs'⟩ := hr'.seg
  exact hs.unique hs' (fun h => hr.nonnull NULL h rfl) fun h => hr'.nonnull NULL h rfl

/-- A block in the middle of the list, with its links. -/
theorem dseg_split {heap : Heap Ptr Node} {prev p last : Ptr} {l₁ l₂ : List Block} {a : Ptr}
    {e : Entry} (hs : DSeg Node.view heap prev p (l₁ ++ (a, e) :: l₂) last NULL) :
    ∃ q, DSeg Node.view heap prev p l₁ q a ∧ heap a = some ⟨e, q, first l₂⟩ ∧
      DSeg Node.view heap a (first l₂) l₂ last NULL := by
  obtain ⟨q, b, h₁, rfl, c, n, hc, hv, h₂⟩ := DSeg.append.mp hs
  obtain rfl := dseg_head h₂
  obtain ⟨e', q', n'⟩ := c
  obtain ⟨rfl, rfl, rfl⟩ : q' = q ∧ e' = e ∧ n' = first l₂ := by simpa [Node.view] using hv
  exact ⟨q', h₁, hc, h₂⟩

/-! ### Traversals -/

theorem searchLoop_spec {heap : Heap Ptr Node} {uri : Bytes} : ∀ {l : List Block} {n : ℕ}
    {prev p last : Ptr}, DSeg Node.view heap prev p l last NULL →
    (∀ a ∈ l.map Prod.fst, a ≠ NULL) → l.length < n →
    searchLoop heap uri n p = .ok (((l.find? (·.2.uri = uri)).map Prod.fst).getD NULL)
  | _, 0, _, _, _, _, _, hn => absurd hn (Nat.not_lt_zero _)
  | [], n + 1, prev, p, last, hs, _, _ => by
      rw [searchLoop, if_pos hs.2]; rfl
  | (a, e) :: l, n + 1, prev, p, last, hs, hne, hn => by
      obtain ⟨rfl, c, q, hc, hv, hs⟩ := hs
      obtain ⟨rfl, rfl, rfl⟩ : c.prev = prev ∧ c.toEntry = e ∧ c.next = q := by
        simpa [Node.view] using hv
      rw [searchLoop, if_neg (hne p (by simp)), Heap.get_of_eq hc, ok_bind]
      split
      · rename_i hu
        simp [hu]
      · rename_i hu
        rw [searchLoop_spec hs (fun a ha => hne a (by simp; right; simpa using ha))
          (by simpa using hn)]
        simp [hu]

theorem search_cache_spec {m : Mem} {l : List Block} {fuel : ℕ} (hr : Rep m l)
    (hfuel : l.length < fuel) (uri : Bytes) :
    search_cache fuel m uri = .ok (((l.find? (·.2.uri = uri)).map Prod.fst).getD NULL) := by
  obtain ⟨last, hs⟩ := hr.seg
  exact searchLoop_spec hs hr.nonnull hfuel

theorem evictAgeLoop_spec {heap : Heap Ptr Node} : ∀ {l : List Block} {n : ℕ}
    {prev p last currmin : ℕ} (best : Option Block), DSeg Node.view heap prev p l last NULL →
    (∀ a ∈ l.map Prod.fst, a ≠ NULL) → l.length < n →
    evictAgeLoop heap n p currmin ((best.map Prod.fst).getD NULL) =
      .ok (((scanMin (·.2.age) l currmin best).map Prod.fst).getD NULL)
  | _, 0, _, _, _, _, _, _, _, hn => absurd hn (Nat.not_lt_zero _)
  | [], n + 1, prev, p, last, currmin, best, hs, _, _ => by
      rw [evictAgeLoop, if_pos hs.2]; rfl
  | (a, e) :: l, n + 1, prev, p, last, currmin, best, hs, hne, hn => by
      obtain ⟨rfl, c, q, hc, hv, hs⟩ := hs
      obtain ⟨rfl, rfl, rfl⟩ : c.prev = prev ∧ c.toEntry = e ∧ c.next = q := by
        simpa [Node.view] using hv
      have hne' : ∀ a ∈ l.map Prod.fst, a ≠ NULL := fun a ha => hne a (by simp; right; simpa using ha)
      have hn' : l.length < n := by simpa using hn
      rw [evictAgeLoop, if_neg (hne p (by simp)), Heap.get_of_eq hc, ok_bind, scanMin]
      split
      · exact evictAgeLoop_spec (some (p, c.toEntry)) hs hne' hn'
      · exact evictAgeLoop_spec best hs hne' hn'

theorem evict_age_spec {m : Mem} {l : List Block} {fuel : ℕ} (hr : Rep m l)
    (hfuel : l.length < fuel) :
    evict_age fuel m = .ok (((scanMin (·.2.age) l MIN none).map Prod.fst).getD NULL) := by
  obtain ⟨last, hs⟩ := hr.seg
  exact evictAgeLoop_spec none hs hr.nonnull hfuel

/-! ### Stamping -/

/-- The addresses on both sides of a block differ from it. -/
theorem Rep.not_mem {m : Mem} {l₁ l₂ : List Block} {a : Ptr} {e : Entry}
    (hr : Rep m (l₁ ++ (a, e) :: l₂)) : a ∉ l₁.map Prod.fst ∧ a ∉ l₂.map Prod.fst := by
  have hnd := hr.nodup
  rw [List.map_append, List.map_cons, List.nodup_append, List.nodup_cons] at hnd
  exact ⟨fun h => hnd.2.2 a h a (by simp) rfl, hnd.2.1.1⟩

theorem read_response_spec {m : Mem} {l₁ l₂ : List Block} {a : Ptr} {e : Entry}
    (hr : Rep m (l₁ ++ (a, e) :: l₂)) (time : ℕ) :
    ∃ m', read_response m a time = .ok (m', e.obj.take e.size) ∧ m'.cache = m.cache ∧
      Rep m' (l₁ ++ (a, { e with age := time }) :: l₂) := by
  obtain ⟨last, hs⟩ := hr.seg
  obtain ⟨q, h₁, hc, h₂⟩ := dseg_split hs
  obtain ⟨hn₁, hn₂⟩ := hr.not_mem
  refine ⟨⟨m.heap.put a ⟨{ e with age := time }, q, first l₂⟩, m.cache⟩, ?_, rfl, ?_, ?_, ?_, ?_⟩
  · rw [read_response, Heap.get_of_eq hc, ok_bind, Heap.upd_of_eq hc]; rfl
  · refine ⟨last, DSeg.append.mpr ⟨q, a, h₁.congr fun b hb => ?_, rfl, _, _, Heap.put_self, rfl,
      h₂.congr fun b hb => ?_⟩⟩
    · exact Heap.put_of_ne (by rintro rfl; exact hn₁ hb)
    · exact Heap.put_of_ne (by rintro rfl; exact hn₂ hb)
  · simpa using hr.nodup
  · simpa using hr.nonnull
  · intro b hb
    have hlive := hr.exact b ((Heap.put_isSome_of_live (by simp [hc])).mp hb)
    simpa using hlive

/-! ### Removal -/

theorem dseg_set_next {heap : Heap Ptr Node} {prev p q nxt b : Ptr} {l : List Block} {f : Entry}
    (hs : DSeg Node.view heap prev p (l ++ [(b, f)]) q nxt) (hb : b ∉ l.map Prod.fst) (n : Ptr) :
    q = b ∧ ∃ c, heap b = some c ∧
      DSeg Node.view (heap.put b { c with next := n }) prev p (l ++ [(b, f)]) b n := by
  obtain ⟨m, d, h₁, rfl, c, k, hc, hv, rfl, rfl⟩ := DSeg.append.mp hs
  refine ⟨rfl, c, hc, DSeg.append.mpr ⟨m, d, h₁.congr fun a ha => ?_, rfl, _, n, Heap.put_self, ?_,
    rfl, rfl⟩⟩
  · exact Heap.put_of_ne (by rintro rfl; exact hb ha)
  · simp only [Node.view, Prod.mk.injEq] at hv ⊢
    exact ⟨hv.1, hv.2.1, trivial⟩

theorem dseg_set_prev {heap : Heap Ptr Node} {q p last d : Ptr} {l : List Block} {g : Entry}
    (hs : DSeg Node.view heap q p ((d, g) :: l) last NULL) (hd : d ∉ l.map Prod.fst) (b : Ptr) :
    p = d ∧ ∃ c, heap d = some c ∧
      DSeg Node.view (heap.put d { c with prev := b }) b d ((d, g) :: l) last NULL := by
  obtain ⟨rfl, c, k, hc, hv, hs⟩ := hs
  refine ⟨rfl, c, hc, rfl, _, k, Heap.put_self, ?_, hs.congr fun a ha => ?_⟩
  · simp only [Node.view, Prod.mk.injEq] at hv ⊢
    exact ⟨trivial, hv.2⟩
  · exact Heap.put_of_ne (by rintro rfl; exact hd ha)

section Unlink
variable {m : Mem} {c x y : Node}

theorem unlink_only (hp : c.prev = NULL) (hn : c.next = NULL) :
    unlink m c = .ok { m with cache.head := NULL } := by
  rw [unlink, if_pos hp, if_neg (by simpa using hn), hn]; rfl

theorem unlink_front (hp : c.prev = NULL) (hn : c.next ≠ NULL) (hx : m.heap c.next = some x) :
    unlink m c = .ok { m with
      heap := m.heap.put c.next { x with prev := NULL }, cache.head := c.next } := by
  rw [unlink, if_pos hp, if_pos hn, Heap.upd_of_eq hx]; rfl

theorem unlink_back (hp : c.prev ≠ NULL) (hn : c.next = NULL) (hx : m.heap c.prev = some x) :
    unlink m c = .ok { m with heap := m.heap.put c.prev { x with next := NULL } } := by
  rw [unlink, if_neg hp, if_pos hn, Heap.upd_of_eq hx]; rfl

theorem unlink_middle (hp : c.prev ≠ NULL) (hn : c.next ≠ NULL) (hx : m.heap c.prev = some x)
    (hy : m.heap.put c.prev { x with next := c.next } c.next = some y) :
    unlink m c = .ok { m with
      heap := (m.heap.put c.prev { x with next := c.next }).put c.next { y with prev := c.prev } } := by
  rw [unlink, if_neg hp, if_neg hn, Heap.upd_of_eq hx, ok_bind, Heap.upd_of_eq hy]; rfl

end Unlink

/-- Unlinking joins the two sides, in each of the four positions a block can have. -/
theorem unlink_spec {m : Mem} {l₁ l₂ : List Block} {a : Ptr} {e : Entry}
    (hr : Rep m (l₁ ++ (a, e) :: l₂)) :
    ∃ c m', m.heap a = some c ∧ c.toEntry = e ∧ unlink m c = .ok m' ∧
      m'.cache.slots = m.cache.slots ∧ (∀ b, (m'.heap b).isSome → (m.heap b).isSome) ∧
      ∃ last, DSeg Node.view m'.heap NULL m'.cache.head (l₁ ++ l₂) last NULL := by
  obtain ⟨last, hs⟩ := hr.seg
  have hlive {x : Node} {d b : Ptr} (hd : (m.heap d).isSome) (hb : (m.heap.put d x b).isSome) :
      (m.heap b).isSome := (Heap.put_isSome_of_live hd).mp hb
  obtain ⟨q, h₁, hc, h₂⟩ := dseg_split hs
  have hnd := hr.nodup
  have hnn := hr.nonnull
  refine ⟨⟨e, q, first l₂⟩, ?_⟩
  rcases List.eq_nil_or_concat l₁ with rfl | ⟨k₁, ⟨b, f⟩, rfl⟩
  · -- the block is the first of the list
    obtain ⟨rfl, hhead⟩ := h₁
    cases l₂ with
    | nil => exact ⟨_, hc, rfl, unlink_only rfl rfl, rfl, fun _ => id, NULL, rfl, rfl⟩
    | cons d l₂ =>
      obtain ⟨d, g⟩ := d
      have hd : d ∉ l₂.map Prod.fst := by
        simp only [List.nil_append, List.map_cons, List.nodup_cons] at hnd; exact hnd.2.1
      obtain ⟨-, c, hcd, hs'⟩ := dseg_set_prev h₂ hd NULL
      have hd' : (m.heap d).isSome := by simp [hcd]
      exact ⟨_, hc, rfl, unlink_front rfl (hnn d (by simp)) hcd, rfl, fun _ => hlive hd', last, hs'⟩
  · rw [List.concat_eq_append] at *
    have hb : b ∉ k₁.map Prod.fst := by
      simp only [List.map_append, List.append_assoc, List.nodup_append] at hnd
      exact fun h => hnd.2.2 b h b (by simp) rfl
    have hqb := (dseg_set_next h₁ hb NULL).1
    subst hqb
    have hq : q ≠ NULL := hnn q (by simp)
    cases l₂ with
    | nil =>
      obtain ⟨-, c, hcb, hs'⟩ := dseg_set_next h₁ hb NULL
      refine ⟨_, hc, rfl, unlink_back hq rfl hcb, rfl, fun _ => hlive (by simp [hcb]), q, ?_⟩
      rw [List.append_nil]; exact hs'
    | cons d l₂ =>
      obtain ⟨d, g⟩ := d
      have hdn : d ≠ NULL := hnn d (by simp)
      have hdist : d ∉ l₂.map Prod.fst ∧ d ∉ (k₁ ++ [(q, f)]).map Prod.fst ∧
          q ∉ ((d, g) :: l₂).map Prod.fst := by
        simp only [List.map_append, List.map_cons, List.map_nil, List.append_assoc,
          List.nodup_append, List.nodup_cons, List.mem_cons, List.mem_append,
          List.singleton_append] at hnd ⊢
        grind
      -- first the block before gets its new `next`, then the block after its new `prev`
      obtain ⟨-, c, hcb, hs₁⟩ := dseg_set_next h₁ hb d
      have h₂' : DSeg Node.view (m.heap.put q { c with next := d }) a d ((d, g) :: l₂) last NULL :=
        DSeg.congr h₂ fun x hx => Heap.put_of_ne (by rintro rfl; exact hdist.2.2 hx)
      obtain ⟨-, c', hcd, hs₂⟩ := dseg_set_prev h₂' hdist.1 q
      have hq' : (m.heap q).isSome := by simp [hcb]
      have hd' : ((m.heap.put q { c with next := d }) d).isSome := by simp [hcd]
      refine ⟨_, hc, rfl, unlink_middle hq hdn hcb hcd, rfl,
        fun _ hx => hlive hq' ((Heap.put_isSome_of_live hd').mp hx), last,
        DSeg.append.mpr ⟨q, d, hs₁.congr fun x hx => ?_, hs₂⟩⟩
      exact Heap.put_of_ne (by rintro rfl; exact hdist.2.1 hx)

theorem removeLoop_spec {m : Mem} {a : Ptr} {c : Node} (hc : m.heap a = some c) (ha : a ≠ NULL) :
    ∀ {l₁ : List Block} {n : ℕ} {prev p q : Ptr}, DSeg Node.view m.heap prev p l₁ q a →
    a ∉ l₁.map Prod.fst → (∀ b ∈ l₁.map Prod.fst, b ≠ NULL) → l₁.length < n →
    removeLoop m a n p = (do
      let m ← unlink m c
      return { heap := m.heap.del a, cache.head := m.cache.head,
               cache.slots := addSize m.cache.slots c.size })
  | _, 0, _, _, _, _, _, _, hn => absurd hn (Nat.not_lt_zero _)
  | [], n + 1, prev, p, q, hs, _, _, _ => by
      obtain rfl := hs.2
      rw [removeLoop, if_neg ha, Heap.get_of_eq hc, ok_bind, if_pos rfl]
  | (b, f) :: l₁, n + 1, prev, p, q, hs, hna, hnn, hn => by
      obtain ⟨rfl, x, k, hx, hv, hs⟩ := hs
      obtain rfl : x.next = k := by simp only [Node.view, Prod.mk.injEq] at hv; exact hv.2.2
      rw [List.map_cons, List.mem_cons, not_or] at hna
      rw [removeLoop, if_neg (hnn p (by simp)), Heap.get_of_eq hx, ok_bind,
        if_neg (Ne.symm hna.1)]
      exact removeLoop_spec hc ha hs hna.2 (fun b hb => hnn b (List.mem_cons_of_mem _ hb))
        (by simpa using hn)

/-- `remove_from_cache` removes exactly the given block and gives its bytes back. -/
theorem remove_from_cache_spec {m : Mem} {l₁ l₂ : List Block} {a : Ptr} {e : Entry}
    (hr : Rep m (l₁ ++ (a, e) :: l₂)) :
    ∃ m', Rep m' (l₁ ++ l₂) ∧ m'.cache.slots = addSize m.cache.slots e.size ∧
      ∀ fuel, (l₁ ++ (a, e) :: l₂).length < fuel → remove_from_cache fuel m a = .ok m' := by
  obtain ⟨c, m₁, hc, rfl, hu, hslots, hdom, last, hs⟩ := unlink_spec hr
  obtain ⟨hn₁, hn₂⟩ := hr.not_mem
  obtain ⟨last', hs'⟩ := hr.seg
  obtain ⟨q, h₁, -, -⟩ := dseg_split hs'
  have hsub : ((l₁ ++ l₂).map Prod.fst).Sublist ((l₁ ++ (a, c.toEntry) :: l₂).map Prod.fst) := by
    exact (List.Sublist.append_left (List.sublist_cons_self _ _) _).map _
  refine ⟨{ heap := m₁.heap.del a, cache.head := m₁.cache.head,
            cache.slots := addSize m₁.cache.slots c.size }, ⟨⟨last, ?_⟩, hr.nodup.sublist hsub,
    fun b hb => hr.nonnull b (hsub.subset hb), fun b hb => ?_⟩, ?_, fun fuel hfuel => ?_⟩
  · refine hs.congr fun b hb => Heap.del_of_ne ?_
    rintro rfl
    rw [List.map_append, List.mem_append] at hb
    exact hb.elim hn₁ hn₂
  · obtain ⟨hne, hb⟩ := Heap.del_isSome.mp hb
    have hmem := hr.exact b (hdom b hb)
    rw [List.map_append, List.map_cons, List.mem_append, List.mem_cons] at hmem
    rw [List.map_append, List.mem_append]
    exact hmem.imp_right fun h => h.resolve_left hne
  · change addSize m₁.cache.slots c.size = _
    rw [hslots]
  · have hlen : l₁.length < fuel := by
      simp only [List.length_append, List.length_cons] at hfuel; omega
    rw [remove_from_cache, removeLoop_spec hc (hr.nonnull a (by simp)) h₁ hn₁
      (fun b hb => hr.nonnull b (by simp only [List.map_append, List.mem_append]; exact Or.inl hb))
      hlen, hu]
    rfl

/-! ### Insertion -/

theorem push_spec {m : Mem} {l : List Block} (hr : Rep m l) {elem : Ptr} (e : Entry)
    (h0 : elem ≠ NULL) (hfree : m.heap elem = none) :
    ∃ m', push m elem e = .ok m' ∧ Rep m' ((elem, e) :: l) ∧
      m'.cache.slots = subSize m.cache.slots e.size := by
  obtain ⟨last, hs⟩ := hr.seg
  have hnew : elem ∉ l.map Prod.fst := by
    intro hm
    have := hr.live elem hm
    rw [hfree] at this
    simp at this
  have hnd : ((elem, e) :: l |>.map Prod.fst).Nodup := List.nodup_cons.mpr ⟨hnew, hr.nodup⟩
  have hnn : ∀ a ∈ ((elem, e) :: l).map Prod.fst, a ≠ NULL := by
    rintro a ha
    rcases List.mem_cons.mp ha with rfl | ha
    · exact h0
    · exact hr.nonnull a ha
  have hdom : ∀ {x : Node} {a : Ptr}, (m.heap.put elem x a).isSome →
      a ∈ ((elem, e) :: l).map Prod.fst := by
    intro x a ha
    rw [List.map_cons, List.mem_cons]
    exact (Heap.put_isSome.mp ha).imp_right (hr.exact a)
  have hold : DSeg Node.view (m.heap.put elem { e with prev := NULL, next := m.cache.head }) NULL
      m.cache.head l last NULL :=
    hs.congr fun a ha => Heap.put_of_ne (by rintro rfl; exact hnew ha)
  rw [push, if_neg (by simp [h0, hfree])]
  cases l with
  | nil =>
    obtain ⟨rfl, hhead⟩ := hs
    refine ⟨_, by rw [if_neg (by simpa using hhead)]; rfl, ⟨⟨elem, rfl, _, _, Heap.put_self, rfl,
      rfl, hhead⟩, hnd, hnn, fun _ => hdom⟩, rfl⟩
  | cons d l =>
    obtain ⟨d, g⟩ := d
    have hd : d ∉ l.map Prod.fst := (List.nodup_cons.mp hr.nodup).1
    obtain ⟨hhead, c, hcd, hs'⟩ := dseg_set_prev hold hd elem
    have hde : elem ≠ d := by rintro rfl; exact hnew (by simp)
    rw [hhead] at hcd hs'
    rw [if_pos (by rw [hhead]; exact hr.nonnull d (by simp)), hhead, Heap.upd_of_eq hcd]
    refine ⟨_, rfl, ⟨⟨last, rfl, { e with prev := NULL, next := d }, d, ?_, rfl, hs'⟩, hnd, hnn,
      fun _ ha => hdom ((Heap.put_isSome_of_live (by simp [hcd])).mp ha)⟩, rfl⟩
    change Heap.put (Heap.put _ _ _) _ _ _ = _
    rw [Heap.put_of_ne hde, Heap.put_self]

end Labs.WebCache
