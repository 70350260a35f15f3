import Mathlib.Algebra.BigOperators.Ring.List
import SystemsLabs.Cachelab.CsimSets

/-! @lab cachelab | file:csim.c | scheme:recency | main result:dirty accounting

    Which bytes are dirty, told by the trace alone: a block is `stored` when a store to it was made
    since the miss that last brought it in. The dirty bits of the lines are exactly this (`DirtyInv`),
    so the counters conserve: what a store makes dirty is in the cache until an eviction writes it
    back. -/

namespace Labs.Csim
open Schemes

/-- The blocks that set `i` holds, with their dirty bits. -/
def held (s i : ℕ) (set : CacheSet) : List (ℕ × Bool) :=
  (set.filter (·.valid)).map fun l => (tagBlock s i l.tag, l.dirty)

/-- The blocks in the cache, set by set. -/
def blocks (st : Sim) : List (ℕ × Bool) :=
  st.2.sets.zipIdx.flatMap fun c => held st.2.s c.2 c.1

def resident (st : Sim) : Finset ℕ := ((blocks st).map Prod.fst).toFinset

/-- `stored` on a trace given from its last access back: a store is met at or after a miss. -/
def storedBack (s E b x : ℕ) : List Access → Bool
  | [] => false
  | a :: past =>
    if block b a.addr = x then
      a.sflag || (decide (x ∈ resident (simulate s E b past.reverse)) && storedBack s E b x past)
    else storedBack s E b x past

/-- The block was stored to since the miss that last brought it in. -/
def stored (s E b : ℕ) (tr : List Access) (x : ℕ) : Bool := storedBack s E b x tr.reverse

/-- The access evicts a block that was stored to since it was last brought in. -/
def dirtyEviction (s E b : ℕ) (pre : List Access) (a : Access) : Bool :=
  decide (∃ x ∈ resident (simulate s E b pre),
    x ∉ resident (simulate s E b (pre ++ [a])) ∧ stored s E b pre x = true)

/-- The access evicts some block. -/
def eviction (s E b : ℕ) (pre : List Access) (a : Access) : Bool :=
  decide (∃ x ∈ resident (simulate s E b pre), x ∉ resident (simulate s E b (pre ++ [a])))

/-- The access is a store that makes a clean or absent block dirty. -/
def dirtyingStore (s E b : ℕ) (pre : List Access) (a : Access) : Bool :=
  a.sflag && !(decide (block b a.addr ∈ resident (simulate s E b pre)) &&
    stored s E b pre (block b a.addr))

theorem stored_concat (s E b : ℕ) (tr : List Access) (a : Access) (x : ℕ) :
    stored s E b (tr ++ [a]) x = if block b a.addr = x then
      a.sflag || (decide (x ∈ resident (simulate s E b tr)) && stored s E b tr x)
    else stored s E b tr x := by
  simp [stored, storedBack]

/-! ### Residency -/

section Residents
variable {s E b : ℕ} {tr : List Access} {st : Sim}

theorem mem_blocks {c : ℕ × Bool} : c ∈ blocks st ↔ ∃ i set l, st.2.sets[i]? = some set ∧ l ∈ set ∧
    l.valid = true ∧ (tagBlock st.2.s i l.tag, l.dirty) = c := by
  simp only [blocks, held, List.mem_flatMap, List.mem_map, List.mem_filter, Prod.exists,
    List.mk_mem_zipIdx_iff_getElem?]
  constructor
  · rintro ⟨set, i, hset, l, ⟨hl, hv⟩, rfl⟩
    exact ⟨i, set, l, hset, hl, hv, rfl⟩
  · rintro ⟨i, set, l, hset, hl, hv, rfl⟩
    exact ⟨set, i, hset, l, ⟨hl, hv⟩, rfl⟩

theorem mem_resident {x : ℕ} : x ∈ resident st ↔ ∃ i set l, st.2.sets[i]? = some set ∧ l ∈ set ∧
    l.valid = true ∧ tagBlock st.2.s i l.tag = x := by
  simp only [resident, List.mem_toFinset, List.mem_map, mem_blocks]
  constructor
  · rintro ⟨c, ⟨i, set, l, hset, hl, hv, rfl⟩, rfl⟩
    exact ⟨i, set, l, hset, hl, hv, rfl⟩
  · rintro ⟨i, set, l, hset, hl, hv, rfl⟩
    exact ⟨_, ⟨i, set, l, hset, hl, hv, rfl⟩, rfl⟩

theorem CacheInv.set (hinv : CacheInv s E b tr st) {i : ℕ} {set : CacheSet}
    (hset : st.2.sets[i]? = some set) :
    i < 2 ^ s ∧ SetInv E tr.length (tagBlock s i) (setBlocks s b i tr) set := by
  obtain ⟨hi, rfl⟩ := List.getElem?_eq_some_iff.mp hset
  have hlt : i < 2 ^ s := hinv.size ▸ hi
  have hsi := hinv.sets i hlt
  rw [List.getD_eq_getElem _ _ hi] at hsi
  exact ⟨hlt, hsi⟩

theorem tagBlock_mod {i : ℕ} (hi : i < 2 ^ s) (tag : BitVec 64) : tagBlock s i tag % 2 ^ s = i := by
  rw [tagBlock, Nat.mul_add_mod_of_lt hi]

/-- The cache holds the `E` most recent blocks of each set. -/
theorem CacheInv.mem_resident (hinv : CacheInv s E b tr st) {x : ℕ} :
    x ∈ resident st ↔ x ∈ (recency (setBlocks s b (x % 2 ^ s) tr)).take E := by
  rw [Csim.mem_resident, hinv.setBits]
  constructor
  · rintro ⟨i, set, l, hset, hl, hv, rfl⟩
    obtain ⟨hi, vs, rs, k, hr⟩ := hinv.set hset
    rw [tagBlock_mod hi, hr.mem_blocks]
    exact ⟨l, hr.mem_valid.mpr ⟨hl, hv⟩, rfl⟩
  · intro hx
    have hi : x % 2 ^ s < st.2.sets.length := by
      rw [hinv.size]
      exact Nat.mod_lt _ (Nat.two_pow_pos s)
    obtain ⟨-, vs, rs, k, hr⟩ := hinv.set (List.getElem?_eq_getElem hi)
    obtain ⟨l, hl, htag⟩ := (hr.mem_blocks x).mp hx
    obtain ⟨hmem, hv⟩ := hr.mem_valid.mp hl
    exact ⟨_, _, l, List.getElem?_eq_getElem hi, hmem, hv, htag⟩

theorem CacheInv.nodup_blocks (hinv : CacheInv s E b tr st) :
    ((blocks st).map Prod.fst).Nodup := by
  rw [blocks, List.map_flatMap, List.nodup_flatMap]
  constructor
  · rintro ⟨set, i⟩ hc
    obtain ⟨-, vs, rs, k, hr⟩ := hinv.set (List.mk_mem_zipIdx_iff_getElem?.mp hc)
    rw [held, List.map_map, hr.filter_valid, hinv.setBits]
    exact hr.nodup_blocks
  · have hidx : (st.2.sets.zipIdx.map Prod.snd).Nodup := by
      rw [List.zipIdx_map_snd]
      exact List.nodup_range'
    rw [List.Nodup, List.pairwise_map] at hidx
    refine hidx.imp_of_mem ?_
    rintro ⟨set, i⟩ ⟨set', j⟩ hi hj hne x hxi hxj
    -- the block tells its set
    obtain ⟨c, hc, rfl⟩ := List.mem_map.mp hxi
    obtain ⟨c', hc', heq⟩ := List.mem_map.mp hxj
    obtain ⟨l, -, rfl⟩ := List.mem_map.mp hc
    obtain ⟨l', -, rfl⟩ := List.mem_map.mp hc'
    obtain ⟨hi, -⟩ := hinv.set (List.mk_mem_zipIdx_iff_getElem?.mp hi)
    obtain ⟨hj, -⟩ := hinv.set (List.mk_mem_zipIdx_iff_getElem?.mp hj)
    simp only [hinv.setBits] at heq
    have hmod := congrArg (· % 2 ^ s) heq
    simp only [tagBlock_mod hi, tagBlock_mod hj] at hmod
    exact hne hmod.symm

theorem sum_dirty (B : ℕ) (set : CacheSet) :
    (set.map fun l => if l.dirty then B else 0).sum = B * set.countP (·.dirty) := by
  induction set with
  | nil => simp
  | cons l set ih =>
    rw [List.map_cons, List.sum_cons, ih, List.countP_cons]
    cases l.dirty <;> simp [Nat.mul_add, Nat.add_comm]

/-- `dirtyInCache` counts the dirty blocks. -/
theorem CacheInv.dirtyInCache (hinv : CacheInv s E b tr st) :
    dirtyInCache st.2 (2 ^ s) = st.2.B * (blocks st).countP (·.2) := by
  have hset : ∀ c ∈ st.2.sets.zipIdx, ((c.1.take E).map fun l => if l.dirty then st.2.B else 0).sum =
      st.2.B * (held st.2.s c.2 c.1).countP (·.2) := by
    rintro ⟨set, i⟩ hc
    obtain ⟨-, vs, rs, k, hr⟩ := hinv.set (List.mk_mem_zipIdx_iff_getElem?.mp hc)
    rw [sum_dirty, hr.take, held, List.countP_map, List.countP_filter]
    congr 1
    refine List.countP_congr fun l hl => ?_
    have hd := hr.setOk.dirty l hl
    cases hld : l.dirty <;> simp_all
  rw [Csim.dirtyInCache, List.take_of_length_le hinv.size.le, hinv.lines, blocks,
    List.countP_flatMap, ← List.sum_map_mul_left]
  conv_lhs => rw [← List.zipIdx_map_fst 0 st.2.sets, List.map_map]
  exact congrArg List.sum (List.map_congr_left hset)

end Residents

/-! ### One access changes one block -/

/-- What an access of block `blk` does to the blocks in the cache and to the counters. -/
inductive BlockStep (st st' : Sim) (blk : ℕ) (sflag : Bool) : Prop
  | hit (R₁ R₂ : List (ℕ × Bool)) (d : Bool) (hold : blocks st = R₁ ++ (blk, d) :: R₂)
      (hnew : blocks st' = R₁ ++ (blk, sflag || d) :: R₂) (he : st'.1.evicts = st.1.evicts)
      (hde : st'.1.dirtyEvicted = st.1.dirtyEvicted)
  | fill (R₁ R₂ : List (ℕ × Bool)) (hold : blocks st = R₁ ++ R₂)
      (hnew : blocks st' = R₁ ++ (blk, sflag) :: R₂) (he : st'.1.evicts = st.1.evicts)
      (hde : st'.1.dirtyEvicted = st.1.dirtyEvicted)
  | evict (R₁ R₂ : List (ℕ × Bool)) (v : ℕ) (d : Bool) (hold : blocks st = R₁ ++ (v, d) :: R₂)
      (hne : v ≠ blk) (hnew : blocks st' = R₁ ++ (blk, sflag) :: R₂)
      (he : st'.1.evicts = st.1.evicts + 1)
      (hde : st'.1.dirtyEvicted = st.1.dirtyEvicted + if d then st.2.B else 0)

/-- Only an eviction of a dirty line adds to `dirtyEvicted`. -/
theorem access_written (st : Sim) (a : Access) :
    let set := st.2.sets.getD (getSetIndex a.addr st.2).toNat []
    (probe st.2.E (getTag a.addr st.2) set ≠ .full →
      (st.access a).1.dirtyEvicted = st.1.dirtyEvicted) ∧
    (probe st.2.E (getTag a.addr st.2) set = .full →
      (st.access a).1.dirtyEvicted = st.1.dirtyEvicted +
        if (set.getD (evict set st.2.E) zeroLine).dirty then st.2.B else 0) := by
  simp only [Sim.access, run, probe]
  generalize search _ _ _ = p
  cases p with
  | hit i => exact ⟨fun _ => rfl, fun h => by cases h⟩
  | empty i => exact ⟨fun _ => rfl, fun h => by cases h⟩
  | full => exact ⟨fun h => absurd rfl h, fun _ => rfl⟩

/-- The blocks of a cache, around one of its lines. -/
theorem blocks_line (S₁ S₂ : List CacheSet) (l₁ l₂ : List SetLine) (s : ℕ) :
    ∃ R₁ R₂, ∀ (st : Sim) (x : SetLine), st.2.sets = S₁ ++ (l₁ ++ x :: l₂) :: S₂ → st.2.s = s →
      blocks st = R₁ ++
        (if x.valid then [(tagBlock s S₁.length x.tag, x.dirty)] else []) ++ R₂ := by
  refine ⟨S₁.zipIdx.flatMap (fun c => held s c.2 c.1) ++ held s S₁.length l₁,
    held s S₁.length l₂ ++ (S₂.zipIdx (S₁.length + 1)).flatMap (fun c => held s c.2 c.1), ?_⟩
  rintro st x hsets rfl
  rw [blocks, hsets, List.zipIdx_append, List.zipIdx_cons]
  cases hv : x.valid <;> simp [held, hv]

section Access
variable {s E b : ℕ} {tr : List Access} {st : Sim}

/-- Step lemma: all an access can do. -/
theorem access_blocks (hinv : CacheInv s E b tr st) (hs : s ≤ 30) (hE : 1 ≤ E)
    (hlen : tr.length < MIN) (a : Access) :
    BlockStep st (st.access a) (block b a.addr) a.sflag := by
  have hidx := hinv.index hs a
  have htag := hinv.tag hs a
  have hinj := tagBlock_injective s (block b a.addr % 2 ^ s)
  obtain ⟨-, -, -, hev⟩ := access_totals st a
  obtain ⟨hsame, hfull⟩ := access_written st a
  have hsets := access_sets st a
  rw [hidx, hinv.lines] at hev hsame hfull hsets
  generalize hi : block b a.addr % 2 ^ s = i at *
  have hlt : i < st.2.sets.length := by
    rw [hinv.size, ← hi]
    exact Nat.mod_lt _ (Nat.two_pow_pos s)
  generalize hset : st.2.sets.getD i [] = set at *
  have hat : st.2.sets[i] = set := by rw [← hset, List.getD_eq_getElem _ _ hlt]
  obtain ⟨-, vs, rs, k, hr⟩ := hinv.set (List.getElem?_eq_getElem hlt)
  rw [hat] at hr
  obtain ⟨l₁, x, l₂, y, rfl, hnew, hyv, hyt, hcase⟩ :=
    hr.nextSet_line hE hlen (getTag a.addr st.2) a.sflag (st.1.time + 1)
  -- the line `x` of set `i` becomes `y`
  obtain ⟨R₁, R₂, hline⟩ := blocks_line (st.2.sets.take i) (st.2.sets.drop (i + 1)) l₁ l₂ s
  rw [List.length_take, Nat.min_eq_left hlt.le] at hline
  have hold := hline st x (by
    rw [← hat, ← List.drop_eq_getElem_cons hlt, List.take_append_drop]) hinv.setBits
  have hnew' := hline (st.access a) y (by
    rw [hsets, hnew, List.set_eq_take_append_cons_drop, if_pos hlt]) (by
    rw [hsets]; exact hinv.setBits)
  rw [if_pos hyv, hyt, htag, List.append_assoc, List.singleton_append] at hnew'
  rcases hcase with ⟨hxv, hxt, hd, hp⟩ | ⟨rfl, hd, hp⟩ | ⟨hxv, hxt, hd, hp, hvic⟩
  · rw [if_pos hxv, hxt, htag, List.append_assoc, List.singleton_append] at hold
    rw [hd] at hnew'
    rw [hp] at hev hsame
    exact .hit R₁ R₂ x.dirty hold hnew' hev (hsame nofun)
  · rw [hd] at hnew'
    rw [hp] at hev hsame
    exact .fill R₁ R₂ (by simpa [zeroLine] using hold) hnew' hev (hsame nofun)
  · rw [if_pos hxv, List.append_assoc, List.singleton_append] at hold
    rw [hd] at hnew'
    rw [hp] at hev
    refine .evict R₁ R₂ _ x.dirty hold ?_ hnew' hev ?_
    · intro heq
      rw [← htag] at heq
      exact hxt (hinj heq)
    · rw [hfull hp, hvic]
      simp

/-- The dirty bits tell what was stored, and the counters what became of it. -/
structure DirtyInv (s E b : ℕ) (tr : List Access) (st : Sim) : Prop where
  size : st.2.B = 2 ^ b
  bits : ∀ c ∈ blocks st, c.2 = stored s E b tr c.1
  evicts : st.1.evicts = countAlong (eviction s E b) tr
  written : st.1.dirtyEvicted = 2 ^ b * countAlong (dirtyEviction s E b) tr
  total : st.1.dirtyEvicted + 2 ^ b * (blocks st).countP (·.2) =
    2 ^ b * countAlong (dirtyingStore s E b) tr

theorem dirtyInv_start (s E b : ℕ) : DirtyInv s E b [] (start s E b) := by
  have hnil : blocks (start s E b) = [] := by
    rw [List.eq_nil_iff_forall_not_mem]
    intro c hc
    obtain ⟨i, set, l, hset, hl, hv, -⟩ := mem_blocks.mp hc
    obtain rfl := List.eq_of_mem_replicate (List.mem_of_getElem? hset)
    rw [List.eq_of_mem_replicate hl] at hv
    cases hv
  exact ⟨by simp [start, newCache, Nat.shiftLeft_eq], by simp [hnil], rfl, rfl, by rw [hnil]; rfl⟩

theorem mem_resident_iff {x : ℕ} : x ∈ resident st ↔ x ∈ (blocks st).map Prod.fst :=
  List.mem_toFinset

theorem access_B (st : Sim) (a : Access) : (st.access a).2.B = st.2.B := by
  rw [access_sets]

/-- An access under which all blocks stay evicts none. -/
theorem no_eviction {a : Access} (h : ∀ x ∈ resident (simulate s E b tr),
      x ∈ resident (simulate s E b (tr ++ [a]))) :
    eviction s E b tr a = false ∧ dirtyEviction s E b tr a = false := by
  simp only [eviction, dirtyEviction, decide_eq_false_iff_not]
  exact ⟨fun ⟨x, hx, hout⟩ => hout (h x hx), fun ⟨x, hx, hout, _⟩ => hout (h x hx)⟩

/-- One block leaves, and it was dirty if it had been stored to. -/
theorem sole_eviction {a : Access} {v : ℕ}
    (hgone : ∀ x, x ∈ resident (simulate s E b tr) ∧
      x ∉ resident (simulate s E b (tr ++ [a])) ↔ x = v) :
    eviction s E b tr a = true ∧ dirtyEviction s E b tr a = stored s E b tr v := by
  constructor
  · rw [eviction, decide_eq_true_iff]
    exact ⟨v, (hgone v).mpr rfl⟩
  · rw [Bool.eq_iff_iff, dirtyEviction, decide_eq_true_iff]
    constructor
    · rintro ⟨x, hx, hout, hs⟩
      rwa [(hgone x).mp ⟨hx, hout⟩] at hs
    · intro hs
      exact ⟨v, ((hgone v).mpr rfl).1, ((hgone v).mpr rfl).2, hs⟩

theorem store_present {a : Access} (hin : block b a.addr ∈ resident (simulate s E b tr)) :
    dirtyingStore s E b tr a = (a.sflag && !stored s E b tr (block b a.addr)) ∧
    stored s E b (tr ++ [a]) (block b a.addr) =
      (a.sflag || stored s E b tr (block b a.addr)) := by
  simp [dirtyingStore, stored_concat, hin]

theorem store_absent {a : Access} (hout : block b a.addr ∉ resident (simulate s E b tr)) :
    dirtyingStore s E b tr a = a.sflag ∧
    stored s E b (tr ++ [a]) (block b a.addr) = a.sflag := by
  simp [dirtyingStore, stored_concat, hout]

/-- The accessed block gets its bit, the others keep theirs. -/
theorem bits_concat {a : Access} {R₁ R₂ : List (ℕ × Bool)} {d : Bool}
    (hbits : ∀ c ∈ R₁ ++ R₂, c.2 = stored s E b tr c.1)
    (hnd : ((R₁ ++ (block b a.addr, d) :: R₂).map Prod.fst).Nodup)
    (hd : d = stored s E b (tr ++ [a]) (block b a.addr)) :
    ∀ c ∈ R₁ ++ (block b a.addr, d) :: R₂, c.2 = stored s E b (tr ++ [a]) c.1 := by
  intro c hc
  rw [List.map_append, List.map_cons, List.nodup_middle, List.nodup_cons, ← List.map_append] at hnd
  rw [List.mem_append, List.mem_cons, or_left_comm, ← List.mem_append] at hc
  rcases hc with rfl | hc
  · exact hd
  · have hne : block b a.addr ≠ c.1 := by
      intro heq
      have hm : c.1 ∈ (R₁ ++ R₂).map Prod.fst := List.mem_map_of_mem hc
      rw [← heq] at hm
      exact hnd.1 hm
    rw [stored_concat, if_neg hne]
    exact hbits c hc

theorem countP_middle (R₁ R₂ : List (ℕ × Bool)) (c : ℕ × Bool) :
    (R₁ ++ c :: R₂).countP (·.2) = (R₁ ++ R₂).countP (·.2) + if c.2 then 1 else 0 := by
  rw [List.countP_append, List.countP_cons, List.countP_append, Nat.add_assoc]

theorem mem_middle {α : Type*} {R₁ R₂ : List α} {c d : α} (h : c ∈ R₁ ++ R₂) :
    c ∈ R₁ ++ d :: R₂ := by
  rw [List.mem_append] at h ⊢
  exact h.imp_right (List.mem_cons_of_mem _)

/-- A block listed once is not among the others. -/
theorem fst_not_mem {R₁ R₂ : List (ℕ × Bool)} {c : ℕ × Bool}
    (h : ((R₁ ++ c :: R₂).map Prod.fst).Nodup) : c.1 ∉ R₁.map Prod.fst ++ R₂.map Prod.fst := by
  rw [List.map_append, List.map_cons, List.nodup_middle, List.nodup_cons] at h
  exact h.1

/-- Putting another block in the place of one takes only that one away. -/
theorem replaced_iff {R₁ R₂ : List (ℕ × Bool)} {c e : ℕ × Bool} (hne : c.1 ≠ e.1)
    (hnd : ((R₁ ++ c :: R₂).map Prod.fst).Nodup) (x : ℕ) :
    x ∈ (R₁ ++ c :: R₂).map Prod.fst ∧ x ∉ (R₁ ++ e :: R₂).map Prod.fst ↔ x = c.1 := by
  have hmem : ∀ d : ℕ × Bool, x ∈ (R₁ ++ d :: R₂).map Prod.fst ↔
      x = d.1 ∨ x ∈ R₁.map Prod.fst ++ R₂.map Prod.fst := fun d => by
    simp [or_left_comm]
  rw [hmem, hmem, not_or]
  constructor
  · rintro ⟨hx, -, hout⟩
    exact hx.resolve_right hout
  · rintro rfl
    exact ⟨Or.inl rfl, hne, fst_not_mem hnd⟩

/-- Step lemma for the accounting. -/
theorem dirtyInv_access {a : Access} (hd : DirtyInv s E b tr (simulate s E b tr))
    (hnd : ((blocks (simulate s E b tr)).map Prod.fst).Nodup)
    (hnd' : ((blocks (simulate s E b (tr ++ [a]))).map Prod.fst).Nodup)
    (hstep : BlockStep (simulate s E b tr) (simulate s E b (tr ++ [a])) (block b a.addr) a.sflag) :
    DirtyInv s E b (tr ++ [a]) (simulate s E b (tr ++ [a])) := by
  have hB : (simulate s E b (tr ++ [a])).2.B = 2 ^ b := by
    rw [simulate_concat, access_B, hd.size]
  have hbits := hd.bits
  have htotal := hd.total
  cases hstep with
  | hit R₁ R₂ d hold hnew he hde =>
    obtain ⟨hds, hst⟩ := store_present (a := a) (mem_resident_iff.mpr (by rw [hold]; simp))
    obtain ⟨hev, hdev⟩ := no_eviction (a := a) fun x hx => by
      rw [mem_resident_iff, hold] at hx
      rw [mem_resident_iff, hnew]
      simpa using hx
    rw [hold] at hbits htotal
    rw [← hbits (_, d) (by simp)] at hds hst
    refine ⟨hB, ?_, ?_, ?_, ?_⟩
    · rw [hnew] at hnd' ⊢
      exact bits_concat (fun c hc => hbits c (mem_middle hc)) hnd' hst.symm
    · rw [countAlong_concat, he, hd.evicts, hev]
      rfl
    · rw [countAlong_concat, hde, hd.written, hdev]
      rfl
    · rw [countP_middle] at htotal
      rw [countAlong_concat, hde, Nat.mul_add, ← htotal, hds, hnew, countP_middle]
      cases a.sflag <;> cases d <;> simp [Nat.mul_add, Nat.add_assoc]
  | fill R₁ R₂ hold hnew he hde =>
    rw [hnew] at hnd'
    have hout : block b a.addr ∉ resident (simulate s E b tr) := by
      rw [mem_resident_iff, hold, List.map_append]
      exact fst_not_mem hnd'
    obtain ⟨hds, hst⟩ := store_absent hout
    obtain ⟨hev, hdev⟩ := no_eviction (a := a) fun x hx => by
      rw [mem_resident_iff, hold] at hx
      rw [mem_resident_iff, hnew]
      simp only [List.map_append, List.map_cons] at hx ⊢
      exact mem_middle hx
    rw [hold] at hbits htotal
    refine ⟨hB, ?_, ?_, ?_, ?_⟩
    · rw [hnew]
      exact bits_concat hbits hnd' hst.symm
    · rw [countAlong_concat, he, hd.evicts, hev]
      rfl
    · rw [countAlong_concat, hde, hd.written, hdev]
      rfl
    · rw [countAlong_concat, hde, Nat.mul_add, ← htotal, hds, hnew, countP_middle, Nat.mul_add,
        Nat.add_assoc]
  | evict R₁ R₂ v d hold hne hnew he hde =>
    rw [hnew] at hnd'
    rw [hold] at hnd hbits htotal
    have hgone : ∀ x, x ∈ resident (simulate s E b tr) ∧
        x ∉ resident (simulate s E b (tr ++ [a])) ↔ x = v := fun x => by
      rw [mem_resident_iff, mem_resident_iff, hold, hnew]
      exact replaced_iff hne hnd x
    have hout : block b a.addr ∉ resident (simulate s E b tr) := by
      rw [mem_resident_iff, hold]
      exact fun hin => ((replaced_iff hne.symm hnd' _).mpr rfl).2 hin
    obtain ⟨hds, hst⟩ := store_absent hout
    obtain ⟨hev, hdev⟩ := sole_eviction hgone
    rw [← hbits (v, d) (by simp)] at hdev
    refine ⟨hB, ?_, ?_, ?_, ?_⟩
    · rw [hnew]
      exact bits_concat (fun c hc => hbits c (mem_middle hc)) hnd' hst.symm
    · rw [countAlong_concat, he, hd.evicts, hev]
      rfl
    · rw [countAlong_concat, hde, hd.written, hdev, hd.size, Nat.mul_add]
      cases d <;> simp
    · rw [countP_middle] at htotal
      rw [countAlong_concat, hde, Nat.mul_add, ← htotal, hds, hnew, countP_middle, hd.size]
      cases d <;> simp [Nat.mul_add, Nat.add_assoc, Nat.add_comm, Nat.add_left_comm]

/-- Run lemma: after every trace within the bound of `evict`. -/
theorem dirtyInv_simulate (hs : s ≤ 30) (hE : 1 ≤ E) (tr : List Access) (hlen : tr.length ≤ MIN) :
    DirtyInv s E b tr (simulate s E b tr) := by
  induction tr using List.reverseRecOn with
  | nil => exact dirtyInv_start s E b
  | append_singleton tr a ih =>
    have hinv' := cacheInv_simulate (b := b) hs hE (tr ++ [a]) hlen
    rw [List.length_append, List.length_singleton] at hlen
    have hinv := cacheInv_simulate (b := b) hs hE tr (by omega)
    refine dirtyInv_access (ih (by omega)) hinv.nodup_blocks hinv'.nodup_blocks ?_
    rw [simulate_concat]
    exact access_blocks hinv hs hE (by omega) a

/-- The dirty blocks in the cache are the resident ones that were stored to. -/
theorem DirtyInv.card (hd : DirtyInv s E b tr st) (hnd : ((blocks st).map Prod.fst).Nodup) :
    ((resident st).filter (stored s E b tr ·)).card = (blocks st).countP (·.2) := by
  rw [resident, ← List.toFinset_filter, List.toFinset_card_of_nodup (hnd.filter _),
    ← List.countP_eq_length_filter, List.countP_map]
  refine List.countP_congr fun c hc => ?_
  rw [hd.bits c hc]
  rfl

end Access

/-- At every point of every trace: the dirty bytes in the cache are those of the resident blocks
    stored to since they were brought in, each eviction of such a block has written one block back,
    and the two together are the stores that made a clean or absent block dirty. -/
theorem dirty_accounting (s E b : ℕ) (hs : s ≤ 30) (hE : 1 ≤ E) (tr : List Access)
    (hlen : tr.length ≤ 100000000) :
    dirtyInCache (simulate s E b tr).2 (2 ^ s) =
      2 ^ b * ((resident (simulate s E b tr)).filter (stored s E b tr ·)).card ∧
    (simulate s E b tr).1.evicts = countAlong (eviction s E b) tr ∧
    (simulate s E b tr).1.dirtyEvicted = 2 ^ b * countAlong (dirtyEviction s E b) tr ∧
    (simulate s E b tr).1.dirtyEvicted + dirtyInCache (simulate s E b tr).2 (2 ^ s) =
      2 ^ b * countAlong (dirtyingStore s E b) tr := by
  have hinv := cacheInv_simulate (b := b) hs hE tr hlen
  have hd := dirtyInv_simulate (b := b) hs hE tr hlen
  rw [hinv.dirtyInCache, hd.size, hd.card hinv.nodup_blocks]
  exact ⟨rfl, hd.evicts, hd.written, hd.total⟩

/-- A store, a load of the same block, and a conflict that writes the block back. -/
theorem dirty_accounting_conflict :
    (simulate 1 1 1 [⟨0, true⟩, ⟨1, false⟩, ⟨4, false⟩]).1.dirtyEvicted =
      2 * countAlong (dirtyEviction 1 1 1) [⟨0, true⟩, ⟨1, false⟩, ⟨4, false⟩] ∧
    countAlong (dirtyEviction 1 1 1) [⟨0, true⟩, ⟨1, false⟩, ⟨4, false⟩] = 1 :=
  ⟨(dirty_accounting 1 1 1 (by decide) (by decide) _ (by decide)).2.2.1, by decide⟩

end Labs.Csim
