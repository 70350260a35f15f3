import SystemsLabs.Proxylab.CacheProgress

/-! @lab proxylab | file:cache.c | scheme:heap, transition | main result:the two chains and the counter

    The cache by itself, under any sequence of calls of `add_to_cache`, `read_response` and
    `remove_from_cache`. Nothing keeps a caller from adding a URI twice, so what holds in every state
    is `Accounted` and no more: the list, its links both ways and its bytes. `read_response` may set
    any age; only the end of the eviction loop depends on it. -/

namespace Labs.WebCache
open Schemes

/-- `q` is met on the chain from `p`. -/
inductive Listed (heap : Heap Ptr Node) : Ptr → Ptr → Prop
  | here {p : Ptr} (h : p ≠ NULL) : Listed heap p p
  | next {p q : Ptr} {c : Node} (hc : heap p = some c) (h : Listed heap c.next q) : Listed heap p q

/-- A call with its arguments; `elem` is what `Malloc` answers. -/
inductive Call where
  | add (req_uri response : Bytes) (size time : ℕ) (elem : Ptr)
  | read (curr : Ptr) (time : ℕ)
  | remove (curr : Ptr)

/-- A call that returns. -/
def Call.Step (m : Mem) : Call → Mem → Prop
  | .add req_uri response size time elem, m' =>
    (1 ≤ size ∧ size ≤ MAX_OBJECT_SIZE ∧ size ≤ response.length ∧ time < MIN) ∧
      Converges (fun fuel => add_to_cache fuel m req_uri response size time elem) m'
  | .read curr time, m' => Listed m.heap m.cache.head curr ∧
      ∃ contents, read_response m curr time = .ok (m', contents)
  | .remove curr, m' => Listed m.heap m.cache.head curr ∧
      Converges (fun fuel => remove_from_cache fuel m curr) m'

def calls : System Mem Call where
  init m := m = init_cache
  step := Call.Step

/-! ### The links of a list -/

theorem listed_mem {heap : Heap Ptr Node} {p q : Ptr} (h : Listed heap p q) :
    ∀ {l : List Block} {prev last : Ptr}, DSeg Node.view heap prev p l last NULL →
      heap NULL = none → q ∈ l.map Prod.fst := by
  induction h with
  | here hp =>
    intro l prev last hs _
    cases l with
    | nil => exact absurd hs.2 hp
    | cons x l => exact hs.1 ▸ List.mem_cons_self
  | next hc _ ih =>
    intro l prev last hs h0
    cases l with
    | nil =>
      rw [hs.2, h0] at hc
      cases hc
    | cons x l =>
      obtain ⟨a, e⟩ := x
      obtain ⟨rfl, c', n, hc', hv, hs⟩ := hs
      obtain rfl := Option.some.inj (hc.symm.trans hc')
      obtain rfl := (Prod.mk.inj (Prod.mk.inj hv).2).2
      exact List.mem_cons_of_mem _ (ih hs h0)

/-- The links of a node: backwards and forwards, they meet. -/
structure Linked (m : Mem) (a : Ptr) (c : Node) : Prop where
  head : c.prev = NULL ↔ a = m.cache.head
  next : c.next ≠ NULL → ∃ d, m.heap c.next = some d ∧ d.prev = a
  prev : c.prev ≠ NULL → ∃ d, m.heap c.prev = some d ∧ d.next = a

theorem Rep.null {m : Mem} {l : List Block} (hr : Rep m l) : m.heap NULL = none := by
  cases h : m.heap NULL with
  | none => rfl
  | some c => exact absurd rfl (hr.nonnull NULL (hr.exact NULL (by simp [h])))

theorem Rep.linked {m : Mem} {l : List Block} (hr : Rep m l) {a : Ptr} {c : Node}
    (hc : m.heap a = some c) : Linked m a c := by
  obtain ⟨x, hx, rfl⟩ := List.mem_map.mp (hr.exact a (by simp [hc]))
  obtain ⟨l₁, l₂, rfl⟩ := List.append_of_mem hx
  obtain ⟨a, e⟩ := x
  obtain ⟨last, hs⟩ := hr.seg
  obtain ⟨q, h₁, hc', h₂⟩ := dseg_split hs
  obtain rfl := Option.some.inj (hc'.symm.trans hc)
  have hnd := hr.nodup
  have hnn := hr.nonnull
  have hnext : first l₂ ≠ NULL → ∃ d, m.heap (first l₂) = some d ∧ d.prev = a := by
    intro hne
    cases l₂ with
    | nil => exact absurd rfl hne
    | cons y l₂ =>
      obtain ⟨-, d, n, hd, hv, -⟩ := h₂
      exact ⟨d, hd, (Prod.mk.inj hv).1⟩
  rcases List.eq_nil_or_concat l₁ with rfl | ⟨k, ⟨b, f⟩, rfl⟩
  · obtain ⟨rfl, hhead⟩ := h₁
    exact ⟨⟨fun _ => hhead.symm, fun _ => rfl⟩, hnext, fun h => absurd rfl h⟩
  · rw [List.concat_eq_append] at *
    have hhead : m.cache.head = first (k ++ [(b, f)] ++ (a, e) :: l₂) := dseg_head hs
    obtain ⟨m', p', -, hp, d, n, hd, hv, hq, hn⟩ := DSeg.append.mp h₁
    subst hp hq
    have hb : p' ≠ NULL := hnn p' (by simp)
    refine ⟨⟨fun h => absurd h hb, fun h => ?_⟩, hnext, fun _ => ⟨d, hd, ?_⟩⟩
    · -- the node is not the first of the list
      have ha : a = first (k ++ [(p', f)] ++ (a, e) :: l₂) := h.trans hhead
      cases k with
      | nil =>
        obtain rfl : a = p' := ha
        simp at hnd
      | cons y k =>
        obtain ⟨y, g⟩ := y
        obtain rfl : a = y := ha
        simp at hnd
    · simp only [Node.view, Prod.mk.injEq] at hv
      exact hv.2.2.trans hn

/-! ### What a call does -/

section Calls
variable {m m' : Mem} {l : List Block} {fuel size time : ℕ} {curr elem : Ptr}
  {req_uri response : Bytes}

/-- An insertion that returns: some blocks went, and its block is the first now. -/
theorem add_inv (hac : Accounted m l) (hsize : 1 ≤ size ∧ size ≤ response.length)
    (h : Converges (fun fuel => add_to_cache fuel m req_uri response size time elem) m') :
    ∃ l', l'.Sublist l ∧
      Accounted m' ((elem, ⟨req_uri, response.take size, time, size⟩) :: l') := by
  obtain ⟨fuel, hfuel, hrun⟩ := h.above (l.length + 1)
  obtain ⟨m₁, hev, hpush⟩ := bind_ok hrun
  obtain ⟨l', hac₁, hsub, hfit⟩ := hac.evicted hfuel hev
  obtain ⟨h0, hfree⟩ := push_ok hpush
  obtain ⟨m₂, hpush', hac₂⟩ := hac₁.push (e := ⟨req_uri.take req_uri.length, response.take size,
    time, size⟩) h0 hfree hfit ⟨by simpa using hsize.2, hsize.1⟩
  obtain rfl := Except.ok.inj (hpush.symm.trans hpush')
  rw [List.take_length] at hac₂
  exact ⟨l', hsub, hac₂⟩

/-- An insertion into a free block returns when all blocks can be evicted. -/
theorem add_returns (hac : Accounted m l) (hages : ∀ x ∈ l, x.2.age < MIN)
    (hsize : 1 ≤ size ∧ size ≤ MAX_OBJECT_SIZE ∧ size ≤ response.length)
    (h0 : elem ≠ NULL) (hfree : m.heap elem = none) :
    ∃ m', Converges (fun fuel => add_to_cache fuel m req_uri response size time elem) m' := by
  have hall : evictable l = stored l := by
    rw [evictable, List.filter_eq_self.mpr (by simpa using hages)]
  have htotal := hac.total
  have hcap : MAX_CACHE_SIZE = 1024 * 1024 := rfl
  have hmax : MAX_OBJECT_SIZE = 100 * 1024 := rfl
  obtain ⟨-, m₁, hends⟩ := evictLoop_ends rfl hac (by omega : size ≤ m.cache.slots + evictable l)
  have hend := hends (l.length + 1) (l.length + 1) (by omega) (by omega)
  obtain ⟨l', hac₁, hsub, hfit⟩ := hac.evicted (by omega) hend
  have hfree₁ : m₁.heap elem = none := by
    cases hlive : m₁.heap elem with
    | none => rfl
    | some c =>
      have hmem := (hsub.map Prod.fst).subset (hac₁.rep.exact elem (by simp [hlive]))
      have hsome := hac.rep.live elem hmem
      simp [hfree] at hsome
  obtain ⟨m₂, hpush, -⟩ := hac₁.push (e := ⟨req_uri.take req_uri.length, response.take size,
    time, size⟩) h0 hfree₁ hfit ⟨by simpa using hsize.2.2, hsize.1⟩
  refine ⟨m₂, l.length + 1, fun fuel hfuel => ?_⟩
  change add_to_cache fuel m req_uri response size time elem = _
  rw [add_to_cache, hends fuel fuel hfuel hfuel, ok_bind]
  exact hpush

/-- A stamp changes one age. -/
theorem read_inv {l₁ l₂ : List Block} {x : Block} {contents : Bytes}
    (hac : Accounted m (l₁ ++ x :: l₂)) (h : read_response m x.1 time = .ok (m', contents)) :
    contents = x.2.obj ∧ Accounted m' (l₁ ++ stamp x time :: l₂) := by
  obtain ⟨a, e⟩ := x
  have hsize := (hac.sizes (a, e) (by simp)).1
  obtain ⟨m₁, hrun, hcache, hrep⟩ := read_response_spec hac.rep time
  obtain ⟨rfl, rfl⟩ := Prod.mk.inj (Except.ok.inj (h.symm.trans hrun))
  refine ⟨List.take_of_length_le hsize.le, hrep, ?_, ?_⟩
  · have htotal := hac.total
    rw [stored_middle] at htotal ⊢
    rw [hcache]
    exact htotal
  · rintro y hy
    rw [List.mem_append, List.mem_cons] at hy
    rcases hy with hy | rfl | hy
    · exact hac.sizes y (by simp [hy])
    · exact hac.sizes (a, e) (by simp)
    · exact hac.sizes y (by simp [hy])

/-- A listed node is a block of the list. -/
theorem Accounted.listed (hac : Accounted m l) (h : Listed m.heap m.cache.head curr) :
    ∃ l₁ e l₂, l = l₁ ++ (curr, e) :: l₂ := by
  obtain ⟨last, hs⟩ := hac.rep.seg
  obtain ⟨⟨a, e⟩, hx, rfl⟩ := List.mem_map.mp (listed_mem h hs hac.rep.null)
  obtain ⟨l₁, l₂, rfl⟩ := List.append_of_mem hx
  exact ⟨l₁, e, l₂, rfl⟩

/-- A removal joins the two sides of the given node. -/
theorem Accounted.removes {l₁ l₂ : List Block} {x : Block} (hac : Accounted m (l₁ ++ x :: l₂)) :
    ∃ m', Converges (fun fuel => remove_from_cache fuel m x.1) m' ∧ Accounted m' (l₁ ++ l₂) := by
  obtain ⟨m', hac', -, hrun⟩ := hac.remove
  exact ⟨m', ⟨(l₁ ++ x :: l₂).length + 1, fun fuel hfuel => hrun fuel hfuel⟩, hac'⟩

theorem accounted_step {c : Call} (hac : Accounted m l) (h : c.Step m m') :
    ∃ l', Accounted m' l' := by
  cases c with
  | add req_uri response size time elem =>
    obtain ⟨⟨h1, -, hle, -⟩, hrun⟩ := h
    obtain ⟨l', -, hac'⟩ := add_inv hac ⟨h1, hle⟩ hrun
    exact ⟨_, hac'⟩
  | read curr time =>
    obtain ⟨hlisted, contents, hrun⟩ := h
    obtain ⟨l₁, e, l₂, rfl⟩ := hac.listed hlisted
    exact ⟨_, (read_inv (x := (curr, e)) hac hrun).2⟩
  | remove curr =>
    obtain ⟨hlisted, hrun⟩ := h
    obtain ⟨l₁, e, l₂, rfl⟩ := hac.listed hlisted
    obtain ⟨m₁, hrun', hac'⟩ := hac.removes
    obtain rfl := hrun.unique hrun'
    exact ⟨_, hac'⟩

theorem accounted_reachable (h : calls.Reachable m) : ∃ l, Accounted m l := by
  refine System.reachable_of_step (P := fun m => ∃ l, Accounted m l) ?_ ?_ h
  · rintro m rfl
    exact ⟨[], cacheOk_init.accounted⟩
  · rintro m c m' ⟨l, hac⟩ hstep
    exact accounted_step hac hstep

end Calls

/-! ### The representation invariant -/

/-- The cache's two chains and its counter agree on the list of blocks `l`. -/
structure ChainOk (m : Mem) (l : List Block) : Prop where
  rep : Rep m l
  links : ∀ a c, m.heap a = some c → Linked m a c
  bytes : m.cache.slots + stored l = MAX_CACHE_SIZE
  /-- At the subtraction of `add_to_cache` the minuend is the larger. -/
  nowrap : ∀ size m₁, Converges (fun fuel => evictLoop fuel size fuel m) m₁ →
    size ≤ m₁.cache.slots ∧ subSize m₁.cache.slots size = m₁.cache.slots - size
  removes : ∀ curr, Listed m.heap m.cache.head curr → ∃ l₁ e l₂ m', l = l₁ ++ (curr, e) :: l₂ ∧
    Converges (fun fuel => remove_from_cache fuel m curr) m' ∧ Rep m' (l₁ ++ l₂)
  reads : ∀ curr time, Listed m.heap m.cache.head curr → ∃ l₁ e l₂ m',
    l = l₁ ++ (curr, e) :: l₂ ∧ read_response m curr time = .ok (m', e.obj)
  adds : (∀ x ∈ l, x.2.age < MIN) → ∀ req_uri response size time elem, 1 ≤ size →
    size ≤ MAX_OBJECT_SIZE → size ≤ response.length → elem ≠ NULL → m.heap elem = none →
    ∃ m', Converges (fun fuel => add_to_cache fuel m req_uri response size time elem) m'

/-- Under every sequence of calls the list is finite and acyclic, its links meet both ways, and free
    and stored bytes make up `MAX_CACHE_SIZE`; a removal takes out the given node and no other. -/
theorem chain_invariant {m : Mem} (h : calls.Reachable m) : ∃ l, ChainOk m l := by
  obtain ⟨l, hac⟩ := accounted_reachable h
  refine ⟨l, hac.rep, fun a c hc => hac.rep.linked hc, hac.total, ?_, ?_, ?_, ?_⟩
  · intro size m₁ hrun
    obtain ⟨fuel, hfuel, hev⟩ := hrun.above (l.length + 1)
    obtain ⟨l', hac₁, -, hfit⟩ := hac.evicted hfuel hev
    have htotal := hac₁.total
    refine ⟨hfit, ?_⟩
    simp only [subSize, MAX_CACHE_SIZE] at *
    omega
  · intro curr hlisted
    obtain ⟨l₁, e, l₂, rfl⟩ := hac.listed hlisted
    obtain ⟨m', hrun, hac'⟩ := hac.removes
    exact ⟨l₁, e, l₂, m', rfl, hrun, hac'.rep⟩
  · intro curr time hlisted
    obtain ⟨l₁, e, l₂, rfl⟩ := hac.listed hlisted
    obtain ⟨m', hrun, -⟩ := read_response_spec hac.rep time
    obtain ⟨hobj, -⟩ := read_inv (x := (curr, e)) hac hrun
    exact ⟨l₁, e, l₂, m', rfl, hobj ▸ hrun⟩
  · intro hages req_uri response size time elem h1 hmax hle h0 hfree
    exact add_returns hac hages ⟨h1, hmax, hle⟩ h0 hfree

/-- One object of one byte, at address 8. -/
def oneBlock : Mem :=
  ⟨Heap.put (fun _ => none) 8 ⟨⟨[97], [1], 0, 1⟩, NULL, NULL⟩, ⟨8, MAX_CACHE_SIZE - 1⟩⟩

/-- A second one of two bytes in front of it, at address 16. -/
def twoBlocks : Mem :=
  ⟨(oneBlock.heap.put 16 ⟨⟨[98], [2, 3], 1, 2⟩, NULL, 8⟩).put 8 ⟨⟨[97], [1], 0, 1⟩, 16, NULL⟩,
    ⟨16, MAX_CACHE_SIZE - 3⟩⟩

theorem twoBlocks_reachable : calls.Reachable twoBlocks := by
  have h₁ : calls.step init_cache (.add [97] [1] 1 0 8) oneBlock := by
    refine ⟨by decide, 1, fun fuel hfuel => ?_⟩
    obtain ⟨n, rfl⟩ := Nat.exists_eq_add_of_le' hfuel
    rfl
  have h₂ : calls.step oneBlock (.add [98] [2, 3] 2 1 16) twoBlocks := by
    refine ⟨by decide, 1, fun fuel hfuel => ?_⟩
    obtain ⟨n, rfl⟩ := Nat.exists_eq_add_of_le' hfuel
    rfl
  exact ((System.reachable_init rfl).step h₁).step h₂

theorem chain_invariant_two : ∃ l, ChainOk twoBlocks l :=
  chain_invariant twoBlocks_reachable

end Labs.WebCache
