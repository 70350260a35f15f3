import SystemsLabs.Cachelab.CsimLru

/-! @lab cachelab | file:csim.c | scheme:recency | main result:the per-set invariant

    What the lines of a set look like after any trace. An access replaces one line of the set it
    selects and leaves all others where they are (`nextSet_line`); the search loop, the choice of the
    line to fill and the scan of `evict` are each right because of what `SetOk` says together. -/

namespace Labs.Csim
open Schemes

/-- The lines of a set at time `time`. -/
structure SetOk (E time : ℕ) (set : CacheSet) : Prop where
  length : set.length = E
  front : set.filter (·.valid) = set.takeWhile (·.valid)
  tags : ((set.filter (·.valid)).map (·.tag)).Nodup
  stamps : ((set.filter (·.valid)).map (·.LRU)).Nodup
  pos : ∀ l ∈ set, l.valid = true → 0 < l.LRU
  le : ∀ l ∈ set, l.valid = true → l.LRU ≤ time
  zero : ∀ l ∈ set, l.valid = false → l = zeroLine
  dirty : ∀ l ∈ set, l.dirty = true → l.valid = true

namespace Resident
variable {E time k : ℕ} {f : BitVec 64 → ℕ} {h : List ℕ} {set vs rs : List SetLine}

theorem filter_valid (hr : Resident E time f h set vs rs k) : set.filter (·.valid) = vs := by
  rw [hr.split, List.filter_append, List.filter_eq_self.mpr hr.valid]
  simp [zeroLine]

theorem mem (hr : Resident E time f h set vs rs k) {l : SetLine} (hl : l ∈ set) :
    l ∈ vs ∨ l = zeroLine := by
  rw [hr.split] at hl
  rcases List.mem_append.mp hl with hl | hl
  · exact Or.inl hl
  · exact Or.inr (List.eq_of_mem_replicate hl)

theorem mem_valid (hr : Resident E time f h set vs rs k) {l : SetLine} :
    l ∈ vs ↔ l ∈ set ∧ l.valid = true := by
  rw [← hr.filter_valid, List.mem_filter]

theorem nodup_blocks (hr : Resident E time f h set vs rs k) :
    (vs.map fun l => f l.tag).Nodup := by
  have hrs : (rs.map fun l => f l.tag).Nodup := by
    rw [hr.blocks]
    exact (nodup_recency h).sublist (List.take_sublist _ _)
  exact (hr.order.perm.map _).nodup_iff.mp hrs

theorem nodup_stamps (hr : Resident E time f h set vs rs k) : (vs.map (·.LRU)).Nodup := by
  have hrs : (rs.map (·.LRU)).Nodup := by
    rw [List.Nodup, List.pairwise_map]
    exact hr.order.desc.imp fun hlt => hlt.ne'
  exact (hr.order.perm.map _).nodup_iff.mp hrs

theorem setOk (hr : Resident E time f h set vs rs k) : SetOk E time set where
  length := by
    rw [hr.split, List.length_append, List.length_replicate, hr.length]
  front := by
    rw [hr.filter_valid, hr.split, List.takeWhile_append_of_pos hr.valid]
    cases k with
    | zero => simp
    | succ k => simp [List.replicate_succ, zeroLine]
  tags := by
    have hnd : ((vs.map (·.tag)).map f).Nodup := by
      rw [List.map_map]
      exact hr.nodup_blocks
    rw [hr.filter_valid]
    exact hnd.of_map f
  stamps := by
    rw [hr.filter_valid]
    exact hr.nodup_stamps
  pos l hl hv := hr.pos l (hr.mem_valid.mpr ⟨hl, hv⟩)
  le l hl hv := hr.order.le l (hr.order.perm.mem_iff.mpr (hr.mem_valid.mpr ⟨hl, hv⟩))
  zero l hl hv := by
    rcases hr.mem hl with hm | hz
    · rw [hr.valid l hm] at hv
      cases hv
    · exact hz
  dirty l hl hd := by
    rcases hr.mem hl with hm | rfl
    · exact hr.valid l hm
    · cases hd

/-- The search stops at the only line with the tag. -/
theorem probe_held (hr : Resident E time f h set vs rs k) {j : ℕ} {l : SetLine}
    (hj : set[j]? = some l) (hl : l.valid = true) : probe E l.tag set = .hit j := by
  have hmem : l ∈ vs := hr.mem_valid.mpr ⟨List.mem_of_getElem? hj, hl⟩
  rcases probe_cases hr l.tag with ⟨v₁, l', v₂, rfl, htag, hp⟩ | ⟨hne, -⟩ | ⟨hne, -⟩
  · rw [hp]
    have hnd := hr.setOk.tags
    rw [hr.filter_valid] at hnd
    have hlt : j < (v₁ ++ l' :: v₂).length := by
      by_contra hge
      rw [hr.split, List.getElem?_append_right (Nat.le_of_not_lt hge)] at hj
      have hz := List.eq_of_mem_replicate (List.mem_of_getElem? hj)
      rw [hz] at hl
      cases hl
    rw [hr.split, List.getElem?_append_left hlt] at hj
    have heq : ((v₁ ++ l' :: v₂).map (·.tag))[v₁.length]? = ((v₁ ++ l' :: v₂).map (·.tag))[j]? := by
      rw [List.getElem?_map, List.getElem?_map, hj]
      simp [htag]
    rw [(List.getElem?_inj (by simp) hnd).mp heq]
  · exact absurd rfl (hne l hmem)
  · exact absurd rfl (hne l hmem)

/-- One access replaces one line: the one that hits, the first empty one, or the evicted one. -/
theorem nextSet_line (hr : Resident E time f h set vs rs k) (hE : 1 ≤ E) (hmin : time < MIN)
    (tag : BitVec 64) (sflag : Bool) (t : ℕ) : ∃ l₁ x l₂ y, set = l₁ ++ x :: l₂ ∧
      nextSet E tag sflag t set = l₁ ++ y :: l₂ ∧ y.valid = true ∧ y.tag = tag ∧
      ((x.valid = true ∧ x.tag = tag ∧ y.dirty = (sflag || x.dirty) ∧
          probe E tag set = .hit l₁.length) ∨
        (x = zeroLine ∧ y.dirty = sflag ∧ probe E tag set = .empty l₁.length) ∨
        (x.valid = true ∧ x.tag ≠ tag ∧ y.dirty = sflag ∧ probe E tag set = .full ∧
          evict set E = l₁.length)) := by
  rcases probe_cases hr tag with ⟨v₁, l, v₂, rfl, rfl, hp⟩ | ⟨hne, hk, hp⟩ | ⟨hne, rfl, hp⟩
  · refine ⟨v₁, l, v₂ ++ List.replicate k zeroLine, touchLine sflag t l, ?_, ?_, hr.valid l (by simp),
      rfl, Or.inl ⟨hr.valid l (by simp), rfl, by cases sflag <;> rfl, hp⟩⟩
    · rw [hr.split, List.append_assoc, List.cons_append]
    · rw [nextSet, hp, hr.split, List.append_assoc, List.cons_append]
      exact modify_at_length _ _ _ v₁
  · obtain ⟨k, rfl⟩ := Nat.exists_eq_succ_of_ne_zero hk.ne'
    have hset : set = vs ++ zeroLine :: List.replicate k zeroLine := by
      rw [hr.split, List.replicate_succ]
    refine ⟨vs, zeroLine, _, newLine tag sflag t, hset, ?_, rfl, rfl, Or.inr (Or.inl ⟨rfl, rfl, hp⟩)⟩
    rw [nextSet, hp, hset]
    simp [addLine]
  · obtain ⟨v₁, x, v₂, r₀, rfl, rfl, hev⟩ := evict_last hr hE hmin.le
    have hset : set = v₁ ++ x :: v₂ := by
      rw [hr.split]
      simp
    refine ⟨v₁, x, v₂, newLine tag sflag t, hset, ?_, rfl, rfl,
      Or.inr (Or.inr ⟨hr.valid x (by simp), hne x (by simp), rfl, hp, hev⟩)⟩
    rw [nextSet, hp]
    simp only [hev]
    rw [hset]
    simp [addLine]

/-- `evict` picks the line whose block was accessed before all others of a full set. -/
theorem evict_oldest (hr : Resident E time f h set vs rs k) (hE : 1 ≤ E) (hmin : time ≤ MIN)
    (hfull : ∀ l ∈ set, l.valid = true) :
    ∃ x, set[evict set E]? = some x ∧ ∀ l ∈ set, l ≠ x → f l.tag ∈ since (f x.tag) h := by
  obtain rfl : k = 0 := by
    by_contra hk
    have hz := hfull zeroLine (by rw [hr.split]; simp [hk])
    cases hz
  obtain ⟨v₁, x, v₂, r₀, rfl, rfl, hev⟩ := evict_last hr hE hmin
  refine ⟨x, by rw [hev, hr.split]; simp, fun l hl hne => ?_⟩
  have hlr : l ∈ r₀ := by
    have hmem := hr.order.perm.mem_iff.mpr (hr.mem_valid.mpr ⟨hl, hfull l hl⟩)
    rw [List.mem_append, List.mem_singleton] at hmem
    exact hmem.resolve_right hne
  have hrec := List.take_append_drop E (recency h)
  rw [← hr.blocks, List.map_append, List.append_assoc] at hrec
  exact mem_since_of_recency hrec.symm (List.mem_map_of_mem hlr)

end Resident

/-- After every trace, in every set: the lines are well formed, a full set gives up its least
    recently accessed block, and the search finds the line of any block it holds. -/
theorem sets_well_formed (s E b : ℕ) (hs : s ≤ 30) (hE : 1 ≤ E) (tr : List Access)
    (hlen : tr.length ≤ 100000000) (i : ℕ) (set : CacheSet)
    (hset : (simulate s E b tr).2.sets[i]? = some set) :
    SetOk E (simulate s E b tr).1.time set ∧
    ((∀ l ∈ set, l.valid = true) → ∃ x, set[evict set E]? = some x ∧
      ∀ l ∈ set, l ≠ x → tagBlock s i l.tag ∈ since (tagBlock s i x.tag) (setBlocks s b i tr)) ∧
    ∀ j l, set[j]? = some l → l.valid = true → search l.tag (set.take E) 0 = .hit j := by
  have hinv := cacheInv_simulate (b := b) hs hE tr hlen
  obtain ⟨hi, -⟩ := List.getElem?_eq_some_iff.mp hset
  obtain ⟨vs, rs, k, hr⟩ := hinv.sets i (hinv.size ▸ hi)
  rw [List.getD_eq_getElem?_getD, hset, Option.getD_some] at hr
  rw [hinv.time]
  exact ⟨hr.setOk, hr.evict_oldest hE hlen, fun j l => hr.probe_held⟩

/-- A set of two lines, full: block 0, and block 2 with a store. -/
def fullSet : CacheSet := [⟨true, false, 3, 0⟩, ⟨true, true, 2, 1⟩]

/-- Block 2 is the older one of `fullSet`, and `evict` picks it. -/
theorem sets_well_formed_full : SetOk 2 3 fullSet ∧
    (∃ x, fullSet[evict fullSet 2]? = some x ∧ ∀ l ∈ fullSet, l ≠ x →
      tagBlock 1 0 l.tag ∈ since (tagBlock 1 0 x.tag) [0, 2, 0]) ∧
    search 1 fullSet 0 = .hit 1 := by
  have hset : (simulate 1 2 1 [⟨0, false⟩, ⟨4, true⟩, ⟨1, false⟩]).2.sets[0]? = some fullSet := by
    decide
  obtain ⟨hok, hevict, hsearch⟩ := sets_well_formed 1 2 1 (by decide) (by decide)
    [⟨0, false⟩, ⟨4, true⟩, ⟨1, false⟩] (by decide) 0 _ hset
  exact ⟨hok, hevict (by decide), hsearch 1 _ rfl rfl⟩

end Labs.Csim
