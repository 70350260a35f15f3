import SystemsLabs.Cachelab.Csim
import SystemsLabs.Schemes.Recency

/-! @lab cachelab | file:csim.c | scheme:recency | main result:csim is LRU

    Every set of the simulator is an LRU store: its valid lines are a block of the array in front of
    the invalid ones, and ordered by stamp they hold exactly the first `E` entries of the recency
    list of the blocks accessed in that set. The step lemma (`nextSet_inv`) covers hit, fill and
    eviction; the run lemma (`cacheInv_simulate`) carries it through a trace; the hit, miss and
    eviction counts are then stack distances. -/

namespace Labs.Csim
open Schemes

/-! ### One set -/

/-- The line `run` would look at, were `set` the set it selected. -/
def probe (E : ℕ) (tag : BitVec 64) (set : CacheSet) : Probe := search tag (set.take E) 0

/-- What one access leaves in the selected set. -/
def nextSet (E : ℕ) (tag : BitVec 64) (sflag : Bool) (time : ℕ) (set : CacheSet) : CacheSet :=
  match probe E tag set with
  | .hit i => set.modify i (touchLine sflag time)
  | .empty i => addLine set tag i sflag time
  | .full => addLine set tag (evict set E) sflag time

/-- `set` is split into the valid lines `vs` and `k` invalid ones; `rs` orders `vs` by stamp, and
    its blocks are the `E` most recent of the history `h`. `f` turns a tag into a block. -/
structure Resident (E time : ℕ) (f : BitVec 64 → ℕ) (h : List ℕ) (set vs rs : List SetLine)
    (k : ℕ) : Prop where
  split : set = vs ++ List.replicate k zeroLine
  length : vs.length + k = E
  valid : ∀ l ∈ vs, l.valid = true
  pos : ∀ l ∈ vs, 0 < l.LRU
  order : Ordered SetLine.LRU time vs rs
  blocks : rs.map (fun l => f l.tag) = (recency h).take E

def SetInv (E time : ℕ) (f : BitVec 64 → ℕ) (h : List ℕ) (set : CacheSet) : Prop :=
  ∃ vs rs k, Resident E time f h set vs rs k

theorem setInv_empty (E : ℕ) (f : BitVec 64 → ℕ) :
    SetInv E 0 f [] (List.replicate E zeroLine) :=
  ⟨[], [], E, by simp, by simp, by simp, by simp, ordered_nil, by simp⟩

theorem SetInv.mono {E time time' : ℕ} {f : BitVec 64 → ℕ} {h : List ℕ} {set : CacheSet}
    (hinv : SetInv E time f h set) (ht : time ≤ time') : SetInv E time' f h set := by
  obtain ⟨vs, rs, k, hs, hl, hv, hp, ho, hb⟩ := hinv
  exact ⟨vs, rs, k, hs, hl, hv, hp, ⟨ho.perm, ho.desc, fun x hx => (ho.le x hx).trans ht⟩, hb⟩

namespace Resident
variable {E time k : ℕ} {f : BitVec 64 → ℕ} {h : List ℕ} {set vs rs : List SetLine}

theorem mem_blocks (hr : Resident E time f h set vs rs k) (x : ℕ) :
    x ∈ (recency h).take E ↔ ∃ l ∈ vs, f l.tag = x := by
  rw [← hr.blocks, List.mem_map]
  exact exists_congr fun l => and_congr_left fun _ => hr.order.perm.mem_iff

theorem card (hr : Resident E time f h set vs rs k) : vs.length = min E (recency h).length := by
  rw [← hr.order.perm.length_eq, ← List.length_map (fun l : SetLine => f l.tag), hr.blocks,
    List.length_take]

theorem take (hr : Resident E time f h set vs rs k) : set.take E = set := by
  rw [List.take_of_length_le]
  rw [hr.split, List.length_append, List.length_replicate, hr.length]

end Resident

/-! ### The search loop -/

theorem search_skip {tag : BitVec 64} : ∀ {vs ls : List SetLine} {i : ℕ},
    (∀ l ∈ vs, l.valid = true) → (∀ l ∈ vs, l.tag ≠ tag) →
    search tag (vs ++ ls) i = search tag ls (i + vs.length)
  | [], ls, i, _, _ => by simp
  | l :: vs, ls, i, hv, ht => by
      rw [List.cons_append, search, if_pos (hv l (by simp)), if_neg (ht l (by simp)),
        search_skip (fun x hx => hv x (List.mem_cons_of_mem _ hx))
          (fun x hx => ht x (List.mem_cons_of_mem _ hx)), List.length_cons]
      congr 1
      omega

/-- First line with the tag, when there is one. -/
theorem exists_first {tag : BitVec 64} {vs : List SetLine} (h : ∃ l ∈ vs, l.tag = tag) :
    ∃ v₁ l v₂, vs = v₁ ++ l :: v₂ ∧ l.tag = tag ∧ ∀ x ∈ v₁, x.tag ≠ tag := by
  have hfind : (vs.find? fun l => l.tag = tag).isSome := by simpa [List.find?_isSome] using h
  obtain ⟨l, hl⟩ := Option.isSome_iff_exists.mp hfind
  obtain ⟨htag, v₁, v₂, rfl, hv₁⟩ := List.find?_eq_some_iff_append.mp hl
  exact ⟨v₁, l, v₂, rfl, by simpa using htag, by simpa using hv₁⟩

theorem probe_cases {E time k : ℕ} {f : BitVec 64 → ℕ} {h : List ℕ} {set vs rs : List SetLine}
    (hr : Resident E time f h set vs rs k) (tag : BitVec 64) :
    (∃ v₁ l v₂, vs = v₁ ++ l :: v₂ ∧ l.tag = tag ∧ probe E tag set = .hit v₁.length) ∨
    ((∀ l ∈ vs, l.tag ≠ tag) ∧ 0 < k ∧ probe E tag set = .empty vs.length) ∨
    ((∀ l ∈ vs, l.tag ≠ tag) ∧ k = 0 ∧ probe E tag set = .full) := by
  rw [probe, hr.take, hr.split]
  by_cases hex : ∃ l ∈ vs, l.tag = tag
  · obtain ⟨v₁, l, v₂, rfl, hl, hv₁⟩ := exists_first hex
    refine Or.inl ⟨v₁, l, v₂, rfl, hl, ?_⟩
    rw [List.append_assoc, search_skip (fun x hx => hr.valid x (by simp [hx])) hv₁,
      List.cons_append, search, if_pos (hr.valid l (by simp)), if_pos hl, Nat.zero_add]
  · have hne : ∀ l ∈ vs, l.tag ≠ tag := fun l hl ht => hex ⟨l, hl, ht⟩
    rw [search_skip hr.valid hne, Nat.zero_add]
    cases k with
    | zero => exact Or.inr (Or.inr ⟨hne, rfl, rfl⟩)
    | succ k => exact Or.inr (Or.inl ⟨hne, Nat.succ_pos k, by simp [List.replicate_succ, search,
        zeroLine]⟩)

/-! ### The eviction scan -/

theorem evictLoop_of_le : ∀ {ls : List SetLine} {i min minIndex : ℕ}, (∀ l ∈ ls, min ≤ l.LRU) →
    evictLoop ls i min minIndex = minIndex
  | [], _, _, _, _ => rfl
  | l :: ls, i, min, minIndex, hle => by
      rw [evictLoop, if_neg (by have := hle l (by simp); omega)]
      exact evictLoop_of_le fun x hx => hle x (List.mem_cons_of_mem _ hx)

/-- The scan stops at the line whose stamp is below `min` and below all others. -/
theorem evictLoop_of_least {x : SetLine} {l₂ : List SetLine} (h₂ : ∀ y ∈ l₂, x.LRU < y.LRU) :
    ∀ {l₁ : List SetLine} {i min minIndex : ℕ}, x.LRU < min → (∀ y ∈ l₁, x.LRU < y.LRU) →
    evictLoop (l₁ ++ x :: l₂) i min minIndex = i + l₁.length
  | [], i, min, minIndex, hx, _ => by
      rw [List.nil_append, evictLoop, if_pos hx, evictLoop_of_le fun y hy => (h₂ y hy).le]
      rfl
  | a :: l₁, i, min, minIndex, hx, h₁ => by
      have ha := h₁ a (by simp)
      have h₁' : ∀ y ∈ l₁, x.LRU < y.LRU := fun y hy => h₁ y (List.mem_cons_of_mem _ hy)
      rw [List.cons_append, evictLoop, List.length_cons]
      split
      · rw [evictLoop_of_least h₂ ha h₁']; omega
      · rw [evictLoop_of_least h₂ hx h₁']; omega

/-- A full set has a last line in its recency order, and `evict` finds it. -/
theorem evict_last {E time : ℕ} {f : BitVec 64 → ℕ} {h : List ℕ} {set vs rs : List SetLine}
    (hr : Resident E time f h set vs rs 0) (hE : 1 ≤ E) (ht : time ≤ MIN) :
    ∃ v₁ x v₂ r₀, vs = v₁ ++ x :: v₂ ∧ rs = r₀ ++ [x] ∧ evict set E = v₁.length := by
  have hlen : rs.length = E := by rw [hr.order.perm.length_eq, ← hr.length, Nat.add_zero]
  obtain ⟨r₀, x, rfl⟩ := (List.eq_nil_or_concat rs).resolve_left (by
    rintro rfl; simp at hlen; omega)
  rw [List.concat_eq_append] at hr ⊢
  have hx : x ∈ vs := hr.order.perm.mem_iff.mp (by simp)
  have hnd : vs.Nodup := by
    refine (hr.order.perm.nodup_iff).mp (hr.order.desc.imp ?_)
    rintro a b hab rfl
    omega
  obtain ⟨v₁, v₂, rfl⟩ := List.append_of_mem hx
  have hne : ∀ y, y ∈ v₁ ∨ y ∈ v₂ → x.LRU < y.LRU := by
    intro y hy
    refine hr.order.lt_of_ne_last y (by simp; tauto) ?_
    rintro rfl
    rw [List.nodup_append] at hnd
    rcases hy with hy | hy
    · exact hnd.2.2 y hy y (by simp) rfl
    · exact (List.nodup_cons.mp hnd.2.1).1 hy
  refine ⟨v₁, x, v₂, r₀, rfl, rfl, ?_⟩
  rw [evict, hr.take, hr.split, List.replicate_zero, List.append_nil]
  rcases Nat.lt_or_ge x.LRU MIN with hmin | hmax
  · rw [evictLoop_of_least (fun y hy => hne y (Or.inr hy)) hmin (fun y hy => hne y (Or.inl hy)),
      Nat.zero_add]
  · -- stamped at the sentinel, it is the only line: the scan keeps its first index
    have hnone : ∀ y, ¬ (y ∈ v₁ ∨ y ∈ v₂) := by
      intro y hy
      have hlt := hne y hy
      have hle := hr.order.le y (hr.order.perm.mem_iff.mpr (by simp; tauto))
      omega
    obtain rfl := List.eq_nil_iff_forall_not_mem.mpr fun y hy => hnone y (Or.inl hy)
    obtain rfl := List.eq_nil_iff_forall_not_mem.mpr fun y hy => hnone y (Or.inr hy)
    rw [List.nil_append, evictLoop, if_neg (Nat.not_lt.mpr hmax)]
    rfl

/-! ### One access keeps the set an LRU store -/

section Access
variable {E time t k : ℕ} {f : BitVec 64 → ℕ} {h : List ℕ} {set vs rs : List SetLine}
  {tag : BitVec 64} {sflag : Bool}

theorem modify_at_length {α : Type*} (g : α → α) (x : α) (v₂ : List α) : ∀ v₁ : List α,
    (v₁ ++ x :: v₂).modify v₁.length g = v₁ ++ g x :: v₂
  | [] => rfl
  | a :: v₁ => by
      rw [List.cons_append, List.length_cons, List.modify_succ_cons, modify_at_length g x v₂ v₁,
        List.cons_append]

theorem nextSet_hit {v₁ v₂ : List SetLine} {l : SetLine}
    (hr : Resident E time f h set (v₁ ++ l :: v₂) rs k) (hl : l.tag = tag) (ht : time < t) :
    SetInv E t f (h ++ [f tag]) (set.modify v₁.length (touchLine sflag t)) := by
  have hmem : l ∈ rs := hr.order.perm.mem_iff.mpr (by simp)
  obtain ⟨r₁, r₂, rfl⟩ := List.append_of_mem hmem
  refine ⟨v₁ ++ touchLine sflag t l :: v₂, touchLine sflag t l :: (r₁ ++ r₂), k, ?_, ?_, ?_, ?_,
    hr.order.remove.insert rfl ht, ?_⟩
  · rw [hr.split, List.append_assoc, List.cons_append, modify_at_length, List.append_assoc,
      List.cons_append]
  · simpa using hr.length
  · intro x hx
    rcases List.mem_append.mp hx with hx | hx
    · exact hr.valid x (by simp [hx])
    · rcases List.mem_cons.mp hx with rfl | hx
      · exact hr.valid l (by simp)
      · exact hr.valid x (by simp [hx])
  · intro x hx
    rcases List.mem_append.mp hx with hx | hx
    · exact hr.pos x (by simp [hx])
    · rcases List.mem_cons.mp hx with rfl | hx
      · exact lt_of_le_of_lt (Nat.zero_le _) ht
      · exact hr.pos x (by simp [hx])
  · -- the hit moves its block to the front of the recency list
    have hb := hr.blocks
    rw [List.map_append, List.map_cons, hl] at hb
    have hin : f tag ∈ (recency h).take E := by rw [← hb]; simp
    have hnd : (r₁.map (fun l => f l.tag) ++ f tag :: r₂.map (fun l => f l.tag)).Nodup := by
      rw [hb]; exact (nodup_recency h).sublist (List.take_sublist _ _)
    have hout : f tag ∉ r₁.map (fun l => f l.tag) := by
      intro hm
      exact (List.nodup_append.mp hnd).2.2 _ hm _ (List.mem_cons_self ..) rfl
    rw [recency_concat, take_touch_of_mem hin, ← hb, touch_middle hout, List.map_cons,
      List.map_append]
    simp [touchLine, hl]

theorem nextSet_fill (hr : Resident E time f h set vs rs (k + 1))
    (hne : f tag ∉ (recency h).take E) (ht : time < t) :
    SetInv E t f (h ++ [f tag]) (addLine set tag vs.length sflag t) := by
  have hlt : vs.length < E := by have := hr.length; omega
  have hshort : (recency h).length < E := by have := hr.card; omega
  refine ⟨vs ++ [newLine tag sflag t], newLine tag sflag t :: rs, k, ?_, ?_, ?_, ?_, ?_, ?_⟩
  · rw [addLine, hr.split, List.set_append_right _ _ (le_refl _), Nat.sub_self,
      List.replicate_succ, List.set_cons_zero, List.append_assoc, List.singleton_append]
  · have := hr.length; simp; omega
  · intro x hx
    rcases List.mem_append.mp hx with hx | hx
    · exact hr.valid x hx
    · rw [List.mem_singleton.mp hx]; rfl
  · intro x hx
    rcases List.mem_append.mp hx with hx | hx
    · exact hr.pos x hx
    · rw [List.mem_singleton.mp hx]; exact lt_of_le_of_lt (Nat.zero_le _) ht
  · have ho : Ordered SetLine.LRU time (vs ++ []) rs := by simpa using hr.order
    exact ho.insert rfl ht
  · rw [List.take_of_length_le hshort.le] at hne
    rw [List.map_cons, hr.blocks, List.take_of_length_le hshort.le, recency_concat, touch,
      List.erase_of_not_mem hne, List.take_of_length_le hshort]
    rfl

theorem nextSet_evict (hr : Resident E time f h set vs rs 0) (hE : 1 ≤ E) (hmin : time < MIN)
    (hne : f tag ∉ (recency h).take E) (ht : time < t) :
    SetInv E t f (h ++ [f tag]) (addLine set tag (evict set E) sflag t) := by
  obtain ⟨v₁, x, v₂, r₀, rfl, rfl, hev⟩ := evict_last hr hE hmin.le
  have ho : Ordered SetLine.LRU time (v₁ ++ v₂) (r₀ ++ []) := Ordered.remove hr.order
  rw [List.append_nil] at ho
  refine ⟨v₁ ++ newLine tag sflag t :: v₂, newLine tag sflag t :: r₀, 0, ?_, ?_, ?_, ?_,
    ho.insert rfl ht, ?_⟩
  · rw [addLine, hev, hr.split]
    simp
  · simpa using hr.length
  · intro y hy
    rcases List.mem_append.mp hy with hy | hy
    · exact hr.valid y (by simp [hy])
    · rcases List.mem_cons.mp hy with rfl | hy
      · rfl
      · exact hr.valid y (by simp [hy])
  · intro y hy
    rcases List.mem_append.mp hy with hy | hy
    · exact hr.pos y (by simp [hy])
    · rcases List.mem_cons.mp hy with rfl | hy
      · exact lt_of_le_of_lt (Nat.zero_le _) ht
      · exact hr.pos y (by simp [hy])
  · obtain ⟨n, rfl⟩ := Nat.exists_eq_add_of_le' hE
    have hlen : (r₀.map (fun l => f l.tag)).length = n := by
      have := hr.order.perm.length_eq
      have := hr.length
      simp at *
      omega
    have hb : r₀.map (fun l => f l.tag) = (recency h).take n := by
      have hb := congrArg (List.take n) hr.blocks
      rw [List.map_append, List.take_append_of_le_length hlen.ge, List.take_of_length_le hlen.le,
        List.take_take, Nat.min_eq_left (Nat.le_succ n)] at hb
      exact hb
    rw [List.map_cons, hb, recency_concat, take_touch_of_not_mem hne]
    rfl

/-- Step lemma: what the access leaves in its set is again an LRU store. -/
theorem nextSet_inv (hf : f.Injective) (hinv : SetInv E time f h set) (hE : 1 ≤ E)
    (hmin : time < MIN) (ht : time < t) :
    SetInv E t f (h ++ [f tag]) (nextSet E tag sflag t set) := by
  obtain ⟨vs, rs, k, hr⟩ := hinv
  have hout : (∀ l ∈ vs, l.tag ≠ tag) → f tag ∉ (recency h).take E := by
    intro hne hm
    obtain ⟨l, hl, hft⟩ := (hr.mem_blocks _).mp hm
    exact hne l hl (hf hft)
  rcases probe_cases hr tag with ⟨v₁, l, v₂, rfl, hl, hp⟩ | ⟨hne, hk, hp⟩ | ⟨hne, rfl, hp⟩
  · rw [nextSet, hp]; exact nextSet_hit hr hl ht
  · obtain ⟨k, rfl⟩ := Nat.exists_eq_succ_of_ne_zero hk.ne'
    rw [nextSet, hp]; exact nextSet_fill hr (hout hne) ht
  · rw [nextSet, hp]; exact nextSet_evict hr hE hmin (hout hne) ht

/-- The search hits iff the block is among the `E` most recent of the set. -/
theorem probe_hit_iff (hf : f.Injective) (tag : BitVec 64) (hinv : SetInv E time f h set) :
    (∃ i, probe E tag set = .hit i) ↔ f tag ∈ (recency h).take E := by
  obtain ⟨vs, rs, k, hr⟩ := hinv
  rw [hr.mem_blocks]
  rcases probe_cases hr tag with ⟨v₁, l, v₂, rfl, hl, hp⟩ | ⟨hne, _, hp⟩ | ⟨hne, _, hp⟩
  · exact ⟨fun _ => ⟨l, by simp, by rw [hl]⟩, fun _ => ⟨_, hp⟩⟩
  all_goals
    refine ⟨fun ⟨i, hi⟩ => ?_, fun ⟨l, hl, hft⟩ => absurd (hf hft) (hne l hl)⟩
    rw [hp] at hi; cases hi

/-- It runs to the end of the set iff the block is not resident and the set holds `E` blocks. -/
theorem probe_full_iff (hf : f.Injective) (tag : BitVec 64) (hinv : SetInv E time f h set) :
    probe E tag set = .full ↔
      f tag ∉ (recency h).take E ∧ E ≤ (recency h).length := by
  obtain ⟨vs, rs, k, hr⟩ := hinv
  have hcard := hr.card
  have hlen := hr.length
  rw [hr.mem_blocks]
  rcases probe_cases hr tag with ⟨v₁, l, v₂, rfl, hl, hp⟩ | ⟨hne, hk, hp⟩ | ⟨hne, hk, hp⟩
  · rw [hp]
    exact ⟨fun hc => (Probe.noConfusion hc), fun hc => absurd ⟨l, by simp, by rw [hl]⟩ hc.1⟩
  · rw [hp]
    exact ⟨fun hc => (Probe.noConfusion hc), fun hc => by have := hc.2; omega⟩
  · rw [hp]
    refine ⟨fun _ => ⟨?_, by omega⟩, fun _ => rfl⟩
    rintro ⟨l, hl, hft⟩
    exact hne l hl (hf hft)

end Access

/-! ### The whole cache over a trace -/

/-- Blocks accessed in set `i` by a trace, oldest first. -/
def setBlocks (s b i : ℕ) (tr : List Access) : List ℕ :=
  (tr.map (block b ·.addr)).filter (· % 2 ^ s = i)

/-- Block held by a line of set `i` with this tag. -/
def tagBlock (s i : ℕ) (tag : BitVec 64) : ℕ := tag.toNat * 2 ^ s + i

theorem tagBlock_injective (s i : ℕ) : (tagBlock s i).Injective := by
  intro x y hxy
  have hmul : x.toNat * 2 ^ s = y.toNat * 2 ^ s := Nat.add_right_cancel hxy
  exact BitVec.eq_of_toNat_eq (Nat.eq_of_mul_eq_mul_right (Nat.two_pow_pos s) hmul)

/-- State of `main`'s loop after the trace `tr`. -/
structure CacheInv (s E b : ℕ) (tr : List Access) (st : Sim) : Prop where
  time : st.1.time = tr.length
  count : st.1.hits + st.1.misses = tr.length
  lines : st.2.E = E
  setBits : st.2.s = s
  blockBits : st.2.b = b
  size : st.2.sets.length = 2 ^ s
  sets : ∀ i < 2 ^ s, SetInv E tr.length (tagBlock s i) (setBlocks s b i tr)
    (st.2.sets.getD i [])

theorem cacheInv_start (s E b : ℕ) : CacheInv s E b [] (start s E b) where
  time := rfl
  count := rfl
  lines := rfl
  setBits := rfl
  blockBits := rfl
  size := by simp [start, newCache, Nat.shiftLeft_eq]
  sets := by
    intro i hi
    have hget : (start s E b).2.sets.getD i [] = List.replicate E zeroLine := by
      simp [start, newCache, Nat.shiftLeft_eq, List.getD_eq_getElem?_getD, hi]
    rw [hget]
    exact setInv_empty E _

/-- The set an access selects, and what it does to it. -/
theorem access_sets (st : Sim) (a : Access) :
    (st.access a).2 = { st.2 with
      sets := st.2.sets.set (getSetIndex a.addr st.2).toNat
        (nextSet st.2.E (getTag a.addr st.2) a.sflag (st.1.time + 1)
          (st.2.sets.getD (getSetIndex a.addr st.2).toNat [])) } := by
  simp only [Sim.access, run, nextSet, probe]
  generalize search _ _ _ = p
  cases p <;> rfl

/-- What a search outcome adds to `hits`, `misses` and `evicts`. -/
def Probe.tally : Probe → ℕ × ℕ × ℕ
  | .hit _ => (1, 0, 0)
  | .empty _ => (0, 1, 0)
  | .full => (0, 1, 1)

/-- The totals an access adds to. -/
theorem access_totals (st : Sim) (a : Access) :
    let p := probe st.2.E (getTag a.addr st.2)
      (st.2.sets.getD (getSetIndex a.addr st.2).toNat [])
    (st.access a).1.time = st.1.time + 1 ∧
    (st.access a).1.hits = st.1.hits + p.tally.1 ∧
    (st.access a).1.misses = st.1.misses + p.tally.2.1 ∧
    (st.access a).1.evicts = st.1.evicts + p.tally.2.2 := by
  simp only [Sim.access, run, probe]
  generalize search _ _ _ = p
  cases p <;> exact ⟨rfl, rfl, rfl, rfl⟩

section Run
variable {s E b : ℕ} {tr : List Access} {st : Sim}

theorem CacheInv.index (hinv : CacheInv s E b tr st) (hs : s ≤ 30) (a : Access) :
    (getSetIndex a.addr st.2).toNat = block b a.addr % 2 ^ s := by
  rw [getSetIndex_toNat _ _ (by rw [hinv.setBits]; exact hs), hinv.setBits, hinv.blockBits]

theorem CacheInv.tag (hinv : CacheInv s E b tr st) (hs : s ≤ 30) (a : Access) :
    tagBlock s (block b a.addr % 2 ^ s) (getTag a.addr st.2) = block b a.addr := by
  rw [← hinv.index hs, tagBlock, ← hinv.setBits, ← hinv.blockBits]
  exact tag_index_block _ _ (by rw [hinv.setBits]; exact hs)

/-- Step lemma for the whole cache: one more access. -/
theorem cacheInv_access (hinv : CacheInv s E b tr st) (hs : s ≤ 30) (hE : 1 ≤ E)
    (hlen : tr.length < MIN) (a : Access) : CacheInv s E b (tr ++ [a]) (st.access a) := by
  obtain ⟨ht, hh, hm, -⟩ := access_totals st a
  have hidx := hinv.index hs a
  have hlt : block b a.addr % 2 ^ s < 2 ^ s := Nat.mod_lt _ (Nat.two_pow_pos s)
  refine ⟨?_, ?_, ?_, ?_, ?_, ?_, ?_⟩
  · simp [ht, hinv.time]
  · rw [hh, hm, List.length_append, List.length_singleton, ← hinv.count]
    generalize probe _ _ _ = p
    cases p <;> simp only [Probe.tally] <;> omega
  · rw [access_sets]; exact hinv.lines
  · rw [access_sets]; exact hinv.setBits
  · rw [access_sets]; exact hinv.blockBits
  · rw [access_sets]; simpa using hinv.size
  · intro i hi
    rw [access_sets, hidx, List.length_append, List.length_singleton, List.getD_eq_getElem?_getD]
    rcases eq_or_ne (block b a.addr % 2 ^ s) i with rfl | hne
    · -- the selected set takes the step, and its history grows by the block
      have hget : (st.2.sets.set (block b a.addr % 2 ^ s) (nextSet st.2.E (getTag a.addr st.2)
          a.sflag (st.1.time + 1) (st.2.sets.getD (block b a.addr % 2 ^ s) [])))[block b a.addr %
          2 ^ s]?.getD [] = nextSet E (getTag a.addr st.2) a.sflag (tr.length + 1)
            (st.2.sets.getD (block b a.addr % 2 ^ s) []) := by
        rw [List.getElem?_set_self (by rw [hinv.size]; exact hi), Option.getD_some, hinv.lines,
          hinv.time]
      have hhist : setBlocks s b (block b a.addr % 2 ^ s) (tr ++ [a]) =
          setBlocks s b (block b a.addr % 2 ^ s) tr ++
            [tagBlock s (block b a.addr % 2 ^ s) (getTag a.addr st.2)] := by
        rw [hinv.tag hs a]
        simp [setBlocks]
      rw [hget, hhist]
      exact nextSet_inv (tagBlock_injective s _) (hinv.sets _ hi) hE hlen (Nat.lt_succ_self _)
    · -- the other sets keep their lines and their history
      have hhist : setBlocks s b i (tr ++ [a]) = setBlocks s b i tr := by
        simp [setBlocks, hne]
      rw [hhist, List.getElem?_set_ne hne, ← List.getD_eq_getElem?_getD]
      exact (hinv.sets i hi).mono (Nat.le_succ _)

/-- Run lemma: the invariant holds after every trace within the bound of `evict`. -/
theorem cacheInv_simulate (hs : s ≤ 30) (hE : 1 ≤ E) (tr : List Access)
    (hlen : tr.length ≤ MIN) : CacheInv s E b tr (simulate s E b tr) := by
  induction tr using List.reverseRecOn with
  | nil => exact cacheInv_start s E b
  | append_singleton tr a ih =>
    rw [List.length_append, List.length_singleton] at hlen
    rw [simulate_concat]
    exact cacheInv_access (ih (by omega)) hs hE (by omega) a

/-- An access hits iff its block is among the `E` most recent of its set, and evicts iff it misses
    and the set holds `E` blocks. -/
theorem CacheInv.access_counts (hinv : CacheInv s E b tr st) (hs : s ≤ 30) (a : Access) :
    (st.access a).1.hits = st.1.hits +
      (if block b a.addr ∈ (recency (setBlocks s b (block b a.addr % 2 ^ s) tr)).take E
        then 1 else 0) ∧
    (st.access a).1.misses = st.1.misses +
      (if block b a.addr ∈ (recency (setBlocks s b (block b a.addr % 2 ^ s) tr)).take E
        then 0 else 1) ∧
    (st.access a).1.evicts = st.1.evicts +
      (if block b a.addr ∉ (recency (setBlocks s b (block b a.addr % 2 ^ s) tr)).take E ∧
          E ≤ (recency (setBlocks s b (block b a.addr % 2 ^ s) tr)).length then 1 else 0) := by
  have hset := hinv.sets _ (Nat.mod_lt (block b a.addr) (Nat.two_pow_pos s))
  have hinj := tagBlock_injective s (block b a.addr % 2 ^ s)
  have hhit := probe_hit_iff hinj (getTag a.addr st.2) hset
  have hfull := probe_full_iff hinj (getTag a.addr st.2) hset
  rw [hinv.tag hs a] at hhit hfull
  obtain ⟨-, hh, hm, he⟩ := access_totals st a
  rw [hinv.index hs a, hinv.lines] at hh hm he
  rw [hh, hm, he]
  generalize probe E (getTag a.addr st.2) _ = p at hhit hfull ⊢
  cases p with
  | hit i =>
    have hin := hhit.mp ⟨i, rfl⟩
    simp [Probe.tally, hin]
  | empty i =>
    have hout : block b a.addr ∉
        (recency (setBlocks s b (block b a.addr % 2 ^ s) tr)).take E := by
      intro hin
      obtain ⟨j, hj⟩ := hhit.mpr hin
      cases hj
    have hroom : ¬ E ≤ (recency (setBlocks s b (block b a.addr % 2 ^ s) tr)).length :=
      fun hle => Probe.noConfusion (hfull.mpr ⟨hout, hle⟩)
    simp [Probe.tally, hout, hroom]
  | full =>
    obtain ⟨hout, hle⟩ := hfull.mp rfl
    simp [Probe.tally, hout, hle]

end Run

/-! ### The specification: stack distances in the access history -/

/-- Distinct other blocks of `a`'s set accessed since `a`'s block was last accessed. -/
def othersSince (s b : ℕ) (pre : List Access) (a : Access) : Finset ℕ :=
  ((since (block b a.addr) (pre.map (block b ·.addr))).filter
    (· % 2 ^ s = block b a.addr % 2 ^ s)).toFinset

/-- `a`'s block was accessed before, and fewer than `E` other blocks of its set since. -/
def LruHit (s E b : ℕ) (pre : List Access) (a : Access) : Prop :=
  block b a.addr ∈ pre.map (block b ·.addr) ∧ (othersSince s b pre a).card < E

instance (s E b : ℕ) (pre : List Access) (a : Access) : Decidable (LruHit s E b pre a) :=
  inferInstanceAs (Decidable (_ ∧ _))

theorem lruHit_iff (s E b : ℕ) (pre : List Access) (a : Access) :
    LruHit s E b pre a ↔
      block b a.addr ∈ (recency (setBlocks s b (block b a.addr % 2 ^ s) pre)).take E := by
  rw [mem_take_recency, setBlocks, since_filter (by simp), List.mem_filter]
  simp [LruHit, othersSince]

/-- The simulator counts exactly the hits, misses and evictions of an LRU set-associative cache. -/
theorem csim_lru (s E b : ℕ) (hs : s ≤ 30) (hE : 1 ≤ E) (tr : List Access)
    (hlen : tr.length ≤ 100000000) :
    (simulate s E b tr).1.hits + (simulate s E b tr).1.misses = tr.length ∧
    ∀ pre a, pre ++ [a] <+: tr →
      (simulate s E b (pre ++ [a])).1.hits =
        (simulate s E b pre).1.hits + (if LruHit s E b pre a then 1 else 0) ∧
      (simulate s E b (pre ++ [a])).1.misses =
        (simulate s E b pre).1.misses + (if LruHit s E b pre a then 0 else 1) ∧
      (simulate s E b (pre ++ [a])).1.evicts =
        (simulate s E b pre).1.evicts +
          (if ¬ LruHit s E b pre a ∧
              E ≤ (setBlocks s b (block b a.addr % 2 ^ s) pre).toFinset.card then 1 else 0) := by
  refine ⟨(cacheInv_simulate hs hE tr hlen).count, fun pre a hpre => ?_⟩
  have hlt : pre.length + 1 ≤ MIN := by
    have := hpre.length_le
    simp only [List.length_append, List.length_singleton] at this
    exact this.trans hlen
  have hcounts := (cacheInv_simulate (b := b) hs hE pre (by omega)).access_counts hs a
  simp only [← lruHit_iff, length_recency] at hcounts
  rw [simulate_concat]
  exact hcounts

/-- Two blocks that share the only line of a direct-mapped set evict each other. -/
theorem csim_lru_conflict :
    (simulate 1 1 1 [⟨0, false⟩, ⟨4, true⟩, ⟨1, false⟩]).1.hits +
      (simulate 1 1 1 [⟨0, false⟩, ⟨4, true⟩, ⟨1, false⟩]).1.misses = 3 ∧
    (simulate 1 1 1 [⟨0, false⟩, ⟨4, true⟩, ⟨1, false⟩]).1.evicts =
      (simulate 1 1 1 [⟨0, false⟩, ⟨4, true⟩]).1.evicts + 1 := by
  have h := csim_lru 1 1 1 (by decide) (by decide) [⟨0, false⟩, ⟨4, true⟩, ⟨1, false⟩] (by decide)
  refine ⟨h.1, (h.2 [⟨0, false⟩, ⟨4, true⟩] ⟨1, false⟩ ⟨[], rfl⟩).2.2.trans ?_⟩
  rw [if_pos (by decide)]

end Labs.Csim
