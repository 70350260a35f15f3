import SystemsLabs.Cachelab.CsimDirty

/-! @lab cachelab | file:csim.c | scheme:recency | main result:LRU inclusion

    Two caches with the same sets and block size, run in lockstep on one trace; the second has at
    least as many lines to a set. The recency lists are those of the trace, so the smaller cache holds
    an initial part of what the larger one holds. No matching of evictions is needed for the bytes
    written back: both caches conserve, and the larger one makes fewer blocks dirty and keeps more of
    them. -/

namespace Labs.Csim
open Schemes

section Inclusion
variable {s b E E' : ℕ} {tr : List Access} {st st' : Sim}

/-- A block other than the accessed one was there before. -/
theorem BlockStep.old {blk x : ℕ} {sflag : Bool} (h : BlockStep st st' blk sflag)
    (hx : x ∈ resident st') (hne : x ≠ blk) : x ∈ resident st := by
  rw [mem_resident_iff] at hx ⊢
  cases h with
  | hit R₁ R₂ d hold hnew =>
    rw [hnew] at hx
    rw [hold]
    simpa using hx
  | fill R₁ R₂ hold hnew =>
    rw [hnew] at hx
    rw [hold]
    simpa [hne] using hx
  | evict R₁ R₂ v d hold _ hnew =>
    rw [hnew] at hx
    rw [hold, List.map_append, List.map_cons]
    refine mem_middle ?_
    simpa [hne] using hx

theorem resident_subset (hs : s ≤ 30) (hE : 1 ≤ E) (hle : E ≤ E') (hlen : tr.length ≤ MIN) :
    resident (simulate s E b tr) ⊆ resident (simulate s E' b tr) := by
  intro x hx
  rw [(cacheInv_simulate hs hE tr hlen).mem_resident] at hx
  rw [(cacheInv_simulate hs (hE.trans hle) tr hlen).mem_resident]
  exact List.take_subset_take_left _ hle hx

/-- What the smaller cache holds dirty, the larger one does. -/
theorem stored_mono (hs : s ≤ 30) (hE : 1 ≤ E) (hle : E ≤ E') (hlen : tr.length ≤ MIN) {x : ℕ}
    (hx : x ∈ resident (simulate s E b tr)) (hst : stored s E b tr x = true) :
    stored s E' b tr x = true := by
  induction tr using List.reverseRecOn with
  | nil => cases hst
  | append_singleton tr a ih =>
    rw [List.length_append, List.length_singleton] at hlen
    rw [stored_concat] at hst ⊢
    by_cases heq : block b a.addr = x
    · rw [if_pos heq] at hst ⊢
      rw [Bool.or_eq_true, Bool.and_eq_true, decide_eq_true_iff] at hst ⊢
      refine hst.imp_right fun ⟨hin, hin'⟩ => ⟨?_, ih (by omega) hin hin'⟩
      exact resident_subset hs hE hle (by omega) hin
    · rw [if_neg heq] at hst ⊢
      rw [simulate_concat] at hx
      have hstep := access_blocks (cacheInv_simulate (b := b) hs hE tr (by omega)) hs hE (by omega) a
      exact ih (by omega) (hstep.old hx (Ne.symm heq)) hst

theorem dirtyingStore_mono (hs : s ≤ 30) (hE : 1 ≤ E) (hle : E ≤ E') (hlen : tr.length ≤ MIN) :
    countAlong (dirtyingStore s E' b) tr ≤ countAlong (dirtyingStore s E b) tr := by
  refine countAlong_mono fun pre a hpre h => ?_
  have hshort : pre.length ≤ MIN := by
    have := hpre.length_le
    simp only [List.length_append, List.length_singleton] at this
    omega
  simp only [dirtyingStore, Bool.and_eq_true, Bool.not_eq_true', Bool.and_eq_false_imp,
    decide_eq_true_iff] at h ⊢
  refine ⟨h.1, fun hin => ?_⟩
  by_contra hst
  rw [Bool.not_eq_false] at hst
  have hbig := h.2 (resident_subset hs hE hle hshort hin)
  rw [stored_mono hs hE hle hshort hin hst] at hbig
  cases hbig

theorem counts_mono (hs : s ≤ 30) (hE : 1 ≤ E) (hle : E ≤ E') (tr : List Access)
    (hlen : tr.length ≤ MIN) :
    (simulate s E b tr).1.hits ≤ (simulate s E' b tr).1.hits ∧
    (simulate s E' b tr).1.evicts ≤ (simulate s E b tr).1.evicts := by
  induction tr using List.reverseRecOn with
  | nil => exact ⟨le_rfl, le_rfl⟩
  | append_singleton tr a ih =>
    rw [List.length_append, List.length_singleton] at hlen
    obtain ⟨hhits, hev⟩ := ih (by omega)
    have hinv := cacheInv_simulate (b := b) hs hE tr (by omega)
    have hinv' := cacheInv_simulate (b := b) hs (hE.trans hle) tr (by omega)
    obtain ⟨hh, -, he⟩ := hinv.access_counts hs a
    obtain ⟨hh', -, he'⟩ := hinv'.access_counts hs a
    generalize recency (setBlocks s b (block b a.addr % 2 ^ s) tr) = r at *
    have hsub : block b a.addr ∈ r.take E → block b a.addr ∈ r.take E' :=
      fun hin => List.take_subset_take_left _ hle hin
    rw [simulate_concat, simulate_concat, hh, hh', he, he']
    constructor
    · refine Nat.add_le_add hhits ?_
      split
      · rename_i hin
        rw [if_pos (hsub hin)]
      · exact Nat.zero_le _
    · refine Nat.add_le_add hev ?_
      split
      · rename_i hfull
        rw [if_pos ⟨fun hin => hfull.1 (hsub hin), hle.trans hfull.2⟩]
      · exact Nat.zero_le _

/-- A cache with more lines to a set holds at least the blocks of the smaller one after every access,
    hits at least as often, evicts at most as often and writes back at most as much. -/
theorem lru_inclusion (s b E E' : ℕ) (hs : s ≤ 30) (hE : 1 ≤ E) (hle : E ≤ E') (tr : List Access)
    (hlen : tr.length ≤ 100000000) :
    resident (simulate s E b tr) ⊆ resident (simulate s E' b tr) ∧
    (simulate s E b tr).1.hits ≤ (simulate s E' b tr).1.hits ∧
    (simulate s E' b tr).1.evicts ≤ (simulate s E b tr).1.evicts ∧
    (simulate s E' b tr).1.dirtyEvicted ≤ (simulate s E b tr).1.dirtyEvicted := by
  have hsub := resident_subset (b := b) hs hE hle hlen
  obtain ⟨hhits, hev⟩ := counts_mono (b := b) hs hE hle tr hlen
  refine ⟨hsub, hhits, hev, ?_⟩
  have hd := dirtyInv_simulate (b := b) hs hE tr hlen
  have hd' := dirtyInv_simulate (b := b) hs (hE.trans hle) tr hlen
  have hkept : (blocks (simulate s E b tr)).countP (·.2) ≤
      (blocks (simulate s E' b tr)).countP (·.2) := by
    rw [← hd.card (cacheInv_simulate hs hE tr hlen).nodup_blocks,
      ← hd'.card (cacheInv_simulate hs (hE.trans hle) tr hlen).nodup_blocks]
    refine Finset.card_le_card fun x hx => ?_
    rw [Finset.mem_filter] at hx ⊢
    exact ⟨hsub hx.1, stored_mono hs hE hle hlen hx.1 hx.2⟩
  have hmade := Nat.mul_le_mul_left (2 ^ b) (dirtyingStore_mono (b := b) hs hE hle hlen)
  rw [← hd.total, ← hd'.total] at hmade
  have hbytes := Nat.mul_le_mul_left (2 ^ b) hkept
  omega

/-- Three blocks of one set, twice: two lines write back what three lines keep. -/
theorem lru_inclusion_three :
    (simulate 0 2 0 [⟨0, true⟩, ⟨1, false⟩, ⟨2, false⟩, ⟨0, false⟩]).1.hits ≤
      (simulate 0 3 0 [⟨0, true⟩, ⟨1, false⟩, ⟨2, false⟩, ⟨0, false⟩]).1.hits ∧
    (simulate 0 3 0 [⟨0, true⟩, ⟨1, false⟩, ⟨2, false⟩, ⟨0, false⟩]).1.dirtyEvicted = 0 ∧
    (simulate 0 2 0 [⟨0, true⟩, ⟨1, false⟩, ⟨2, false⟩, ⟨0, false⟩]).1.dirtyEvicted = 1 :=
  ⟨(lru_inclusion 0 0 2 3 (by decide) (by decide) (by decide) _ (by decide)).2.1, by decide,
    by decide⟩

end Inclusion

end Labs.Csim
