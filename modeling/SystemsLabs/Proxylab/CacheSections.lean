import SystemsLabs.Proxylab.CacheRun
import SystemsLabs.Schemes.Transition

/-! @lab proxylab | file:proxy.c (doit) | scheme:transition | main result:what a section can do

    The critical sections of `doit` as steps of a system over the shared state, in whatever order
    the threads enter them. A section that never ends (the eviction loop can spin) is not a step, so
    a step is a section that converges. `lookup_inv` and `insert_inv` say once all a section can do
    to the list of blocks; the eviction loop enters through `evictLoop_ok` only: when it ends, some
    blocks are gone and the object fits. -/

namespace Labs.WebCache
open Schemes

/-- A section with its data: the URI and what it served; the URI, the response and the address
    `Malloc` got. -/
inductive Section where
  | lookup (uri : Bytes) (served : Option Bytes)
  | insert (uri response : Bytes) (elem : Ptr)

/-- One section runs from lock to unlock. -/
def Section.Step (p : Proxy) : Section → Proxy → Prop
  | .lookup uri served, p' => Converges (fun fuel => lookupSection fuel p uri) (p', served)
  | .insert uri response elem, p' =>
    1 ≤ response.length ∧ response.length ≤ MAX_OBJECT_SIZE ∧
      Converges (fun fuel => insertSection fuel p uri response response.length elem) p'

/-- The cache from `init_cache` on, under any sequence of sections. -/
def sections : System Proxy Section where
  init p := p = boot
  step := Section.Step

theorem evictLoop_ok {fuel size n : ℕ} {m m' : Mem} {l : List Block} (hok : CacheOk m l)
    (hfuel : l.length < fuel) (hrun : evictLoop fuel size n m = .ok m') :
    ∃ l', CacheOk m' l' ∧ l'.Sublist l ∧ size ≤ m'.cache.slots := by
  obtain ⟨l', hac, hsub, hle⟩ := hok.accounted.evicted hfuel hrun
  exact ⟨l', hac.keyed (hok.keys.sublist (hsub.map _)), hsub, hle⟩

/-- An insertion that succeeds got a free block. -/
theorem push_ok {m m' : Mem} {elem : Ptr} {e : Entry} (h : push m elem e = .ok m') :
    elem ≠ NULL ∧ m.heap elem = none := by
  rw [push] at h
  split at h
  · cases h
  · rename_i hgood
    rw [not_or, Bool.not_eq_true, Option.isSome_eq_false_iff, Option.isNone_iff_eq_none] at hgood
    exact hgood

section Step
variable {p p' : Proxy} {l : List Block} {uri response : Bytes} {served : Option Bytes} {elem : Ptr}

/-- A lookup misses and changes nothing, or hits: it serves the block's object and stamps it. -/
theorem lookup_inv (hok : CacheOk p.mem l)
    (h : Converges (fun fuel => lookupSection fuel p uri) (p', served)) :
    (p' = p ∧ served = none ∧ ∀ x ∈ l, x.2.uri ≠ uri) ∨
    ∃ l₁ x l₂, l = l₁ ++ x :: l₂ ∧ x.2.uri = uri ∧ served = some x.2.obj ∧
      p'.time_count = addSize p.time_count 1 ∧
      CacheOk p'.mem (l₁ ++ stamp x (addSize p.time_count 1) :: l₂) := by
  obtain ⟨fuel, hfuel, hrun⟩ := h.above (l.length + 1)
  rcases em (∃ x ∈ l, x.2.uri = uri) with ⟨x, hx, rfl⟩ | hmiss
  · obtain ⟨l₁, l₂, rfl⟩ := List.append_of_mem hx
    obtain ⟨m', hok', hhit⟩ := lookup_hit hok
    obtain ⟨rfl, rfl⟩ := Prod.mk.inj (Except.ok.inj ((hhit fuel hfuel).symm.trans hrun))
    exact Or.inr ⟨l₁, x, l₂, rfl, rfl, rfl, rfl, hok'⟩
  · have hmiss' : ∀ x ∈ l, x.2.uri ≠ uri := fun x hx hu => hmiss ⟨x, hx, hu⟩
    have hrun' := (lookup_miss hok hfuel hmiss').symm.trans hrun
    obtain ⟨rfl, rfl⟩ := Prod.mk.inj (Except.ok.inj hrun')
    exact Or.inl ⟨rfl, rfl, hmiss'⟩

/-- An insertion finds the URI and changes nothing, or conses its block to what eviction left. -/
theorem insert_inv (hok : CacheOk p.mem l) (hsize : 1 ≤ response.length)
    (h : Converges (fun fuel => insertSection fuel p uri response response.length elem) p') :
    (p' = p ∧ ∃ x ∈ l, x.2.uri = uri) ∨
    ∃ l', l'.Sublist l ∧ (∀ x ∈ l, x.2.uri ≠ uri) ∧ p'.time_count = addSize p.time_count 1 ∧
      CacheOk p'.mem ((elem, entry uri response (addSize p.time_count 1)) :: l') := by
  obtain ⟨fuel, hfuel, hrun⟩ := h.above (l.length + 1)
  rcases em (∃ x ∈ l, x.2.uri = uri) with ⟨x, hx, rfl⟩ | hmiss
  · obtain ⟨l₁, l₂, rfl⟩ := List.append_of_mem hx
    have hsame := (insert_present hok hfuel response response.length elem).symm.trans hrun
    exact Or.inl ⟨(Except.ok.inj hsame).symm, x, hx, rfl⟩
  · have hmiss' : ∀ x ∈ l, x.2.uri ≠ uri := fun x hx hu => hmiss ⟨x, hx, hu⟩
    rw [insert_absent hok hfuel hmiss'] at hrun
    cases hev : evictLoop fuel response.length fuel p.mem with
    | error e => rw [hev] at hrun; cases hrun
    | ok m₁ =>
      obtain ⟨l', hok₁, hsub, hfit⟩ := evictLoop_ok hok hfuel hev
      rw [hev, ok_bind] at hrun
      cases hpush : push m₁ elem (entry uri response (addSize p.time_count 1)) with
      | error e => rw [hpush] at hrun; cases hrun
      | ok m₂ =>
        rw [hpush, ok_bind] at hrun
        obtain rfl := Except.ok.inj hrun
        obtain ⟨h0, hfree⟩ := push_ok hpush
        obtain ⟨m₃, hpush', hok₂⟩ := hok₁.push (e := entry uri response (addSize p.time_count 1))
          h0 hfree hfit ⟨rfl, hsize⟩ fun x hx => hmiss' x (hsub.subset hx)
        obtain rfl := Except.ok.inj (hpush.symm.trans hpush')
        exact Or.inr ⟨l', hsub, hmiss', rfl, hok₂⟩

theorem miss_step (hok : CacheOk p.mem l) (hmiss : ∀ x ∈ l, x.2.uri ≠ uri) :
    (Section.lookup uri none).Step p p :=
  ⟨l.length + 1, fun _ hfuel => lookup_miss hok hfuel hmiss⟩

theorem hit_step {l₁ l₂ : List Block} {x : Block} (hok : CacheOk p.mem (l₁ ++ x :: l₂)) :
    ∃ p', (Section.lookup x.2.uri (some x.2.obj)).Step p p' ∧
      p'.time_count = addSize p.time_count 1 ∧
      CacheOk p'.mem (l₁ ++ stamp x (addSize p.time_count 1) :: l₂) := by
  obtain ⟨m', hok', hhit⟩ := lookup_hit hok
  exact ⟨⟨m', _⟩, ⟨(l₁ ++ x :: l₂).length + 1, hhit⟩, rfl, hok'⟩

/-- An insertion of an object that fits at once, into a free block. -/
theorem insert_step (hok : CacheOk p.mem l) (uri response : Bytes) (elem : Ptr)
    (hsize : 1 ≤ response.length ∧ response.length ≤ MAX_OBJECT_SIZE)
    (hmiss : ∀ x ∈ l, x.2.uri ≠ uri) (hfit : response.length ≤ p.mem.cache.slots)
    (h0 : elem ≠ NULL) (hfree : ∀ x ∈ l, x.1 ≠ elem) :
    ∃ p', (Section.insert uri response elem).Step p p' ∧
      p'.time_count = addSize p.time_count 1 ∧
      CacheOk p'.mem ((elem, entry uri response (addSize p.time_count 1)) :: l) := by
  have hnone : p.mem.heap elem = none := by
    cases hlive : p.mem.heap elem with
    | none => rfl
    | some c =>
      obtain ⟨x, hx, hxe⟩ := List.mem_map.mp (hok.rep.exact elem (by simp [hlive]))
      exact absurd hxe (hfree x hx)
  obtain ⟨m', hpush, hok'⟩ := hok.push (e := entry uri response (addSize p.time_count 1)) h0 hnone
    hfit ⟨rfl, hsize.1⟩ hmiss
  refine ⟨⟨m', addSize p.time_count 1⟩, ⟨hsize.1, hsize.2, l.length + 1, fun fuel hfuel => ?_⟩, rfl,
    hok'⟩
  obtain ⟨fuel, rfl⟩ := Nat.exists_eq_succ_of_ne_zero (Nat.ne_of_gt (Nat.zero_lt_of_lt hfuel))
  have hround : evictLoop (fuel + 1) response.length (fuel + 1) p.mem = .ok p.mem := by
    rw [evictLoop, if_neg (by omega)]
  change insertSection (fuel + 1) p uri response response.length elem = _
  rw [insert_absent hok (by omega) hmiss, hround, ok_bind, hpush]
  rfl

/-- Every section keeps the cache well formed. -/
theorem cacheOk_step {s : Section} (hok : CacheOk p.mem l) (h : s.Step p p') :
    ∃ l', CacheOk p'.mem l' := by
  cases s with
  | lookup uri served =>
    rcases lookup_inv hok h with ⟨rfl, -⟩ | ⟨l₁, x, l₂, -, -, -, -, hok'⟩
    · exact ⟨l, hok⟩
    · exact ⟨_, hok'⟩
  | insert uri response elem =>
    obtain ⟨hsize, -, h⟩ := h
    rcases insert_inv hok hsize h with ⟨rfl, -⟩ | ⟨l', -, -, -, hok'⟩
    · exact ⟨l, hok⟩
    · exact ⟨_, hok'⟩

theorem cacheOk_reachable (h : sections.Reachable p) : ∃ l, CacheOk p.mem l := by
  refine System.reachable_of_step (P := fun p => ∃ l, CacheOk p.mem l) ?_ ?_ h
  · rintro p rfl
    exact ⟨[], cacheOk_init⟩
  · rintro p s p' ⟨l, hok⟩ hstep
    exact cacheOk_step hok hstep

end Step

end Labs.WebCache
