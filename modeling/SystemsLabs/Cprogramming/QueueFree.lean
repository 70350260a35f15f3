import SystemsLabs.Cprogramming.QueueConsistent

/-! @lab cprogramming | file:queue.c, harness.c | structure:ledger of blocks | main result:everything is freed once

    queue.c is compiled with `malloc` and `free` replaced by the functions of harness.c, which count
    the blocks they handed out. The heap forgets a block when it is freed, so a read of a freed element
    and a second `free` are faults; the ledger also writes down every call of `free`. `q_free` follows
    the chain up to the element `tail` points to and gives the last one back behind the loop; what it
    frees is the list `blocks`, in this order. While `noallocate_mode` is on a call of `free` ends the
    process. Of harness.c this is what the queue sees, at a verbosity from 0 on; the blocks as they are
    below are in Harness, and their runs are histories of this ledger. -/

namespace Labs.Queue
open Schemes

/-! ### harness.c -/

/-- The memory with the counter and the mode of harness.c; `calls`: what `free` was called with. -/
structure Harness where
  mem : Mem
  allocated_count : BitVec 64
  noallocate_mode : Bool
  calls : List Ptr

namespace Harness

/-- The queue gets `NULL` when `fail_allocation` strikes; without memory the process ends. -/
def test_malloc (s : Harness) (answer : Ptr) (x : Block) : Except Stop (Harness × Ptr) :=
  if s.noallocate_mode then .error .exit
  else
    let (mem, p) := malloc s.mem answer x
    if p = NULL then .ok (s, NULL)
    else .ok ({ s with mem := mem, allocated_count := s.allocated_count + 1 }, p)

def test_free (s : Harness) (p : Ptr) : Except Stop Harness :=
  if s.noallocate_mode then .error .exit
  else if p = NULL then .ok { s with calls := s.calls ++ [p] }
  else do
    let mem ← free s.mem p
    return { s with
      mem := mem, allocated_count := s.allocated_count - 1, calls := s.calls ++ [p] }

def allocation_check (s : Harness) : BitVec 64 := s.allocated_count

/-- The loop of `q_free`, with the harness's `free`. -/
def freeLoop (tail : Ptr) : ℕ → Harness → Ptr → Except Stop (Harness × Ptr)
  | 0, _, _ => .error .fuel
  | n + 1, s, head =>
    if head = tail then .ok (s, head)
    else do
      let e ← getEle s.mem head
      let s ← test_free s e.value
      let s ← test_free s head
      freeLoop tail n s e.next

/-- `q_free` as it is compiled against harness.h. -/
def q_free (fuel : ℕ) (s : Harness) (q : Ptr) : Except Stop Harness :=
  if q = NULL then .ok s
  else do
    let Q ← getQueue s.mem q
    let s ← if Q.head ≠ NULL then do
        let (s, head) ← freeLoop Q.tail fuel s Q.head
        let e ← getEle s.mem head
        let s ← test_free s e.value
        test_free s head
      else pure s
    test_free s q

end Harness

/-! ### Histories -/

/-- What a program does to the blocks: it gets them, gives them back and writes to them. -/
inductive Event where
  | malloc (answer : Ptr) (x : Block)
  | free (p : Ptr)
  | store (p : Ptr) (x : Block)
  | setNoallocateMode (noallocate : Bool)

def histories : System Harness Event where
  init s := s.mem = (fun _ => none) ∧ s.allocated_count = 0
  step s e s' :=
    match e with
    | .malloc answer x => ∃ p, s.test_malloc answer x = .ok (s', p)
    | .free p => s.test_free p = .ok s'
    | .store p x => (s.mem p).isSome ∧ s' = { s with mem := s.mem.put p x }
    | .setNoallocateMode noallocate => s' = { s with noallocate_mode := noallocate }

/-- The counter is the number of blocks there are. -/
def Counted (s : Harness) : Prop :=
  ∃ live : List Ptr, live.Nodup ∧ NULL ∉ live ∧ (∀ a, a ∈ live ↔ (s.mem a).isSome) ∧
    s.allocated_count.toNat = live.length

section Counted
variable {s s' : Harness} {p : Ptr} {x : Block}

theorem Counted.malloc {answer : Ptr} (hs : Counted s) (hrun : s.test_malloc answer x = .ok (s', p)) :
    Counted s' := by
  unfold Harness.test_malloc at hrun
  split at hrun
  · cases hrun
  · rcases em (answer ≠ NULL ∧ s.mem answer = none) with ⟨hne, hfree⟩ | hbad
    · rw [malloc_ok hne hfree] at hrun
      simp only [if_neg hne, Except.ok.injEq, Prod.mk.injEq] at hrun
      obtain ⟨rfl, -⟩ := hrun
      obtain ⟨live, hnd, hnull, hlive, hcount⟩ := hs
      have hnew : answer ∉ live := by
        intro hmem
        rw [hlive, hfree] at hmem
        cases hmem
      have hnd' : (answer :: live).Nodup := List.nodup_cons.mpr ⟨hnew, hnd⟩
      have hnull' : NULL ∉ answer :: live := by
        rw [List.mem_cons, not_or]
        exact ⟨hne.symm, hnull⟩
      refine ⟨answer :: live, hnd', hnull', fun a => ?_, ?_⟩
      · rw [List.mem_cons, hlive, Heap.put_isSome]
      · have hlen := nodup_words hnd' fun a ha (h0 : a = NULL) => hnull' (h0 ▸ ha)
        rw [List.length_cons] at hlen ⊢
        have hone : (1 : BitVec 64).toNat = 1 := rfl
        rw [BitVec.toNat_add, hcount, hone, Nat.mod_eq_of_lt hlen]
    · rw [malloc_fail hbad] at hrun
      simp only [if_pos, Except.ok.injEq, Prod.mk.injEq] at hrun
      obtain ⟨rfl, -⟩ := hrun
      exact hs

theorem Counted.free (hs : Counted s) (hrun : s.test_free p = .ok s') : Counted s' := by
  unfold Harness.test_free at hrun
  split at hrun
  · cases hrun
  · split at hrun
    · obtain rfl := Except.ok.inj hrun
      exact hs
    · rename_i hne
      obtain ⟨mem, hfree, hrun⟩ := bind_ok hrun
      obtain rfl := Except.ok.inj hrun
      obtain ⟨live, hnd, hnull, hlive, hcount⟩ := hs
      unfold Queue.free at hfree
      rw [if_neg hne] at hfree
      split at hfree
      · rename_i hsome
        obtain rfl := Except.ok.inj hfree
        have hp : p ∈ live := (hlive p).mpr hsome
        refine ⟨live.erase p, hnd.erase p, fun hmem => hnull (List.mem_of_mem_erase hmem), ?_, ?_⟩
        · intro a
          rw [hnd.mem_erase_iff, hlive, Heap.del_isSome]
        · have hpos : 0 < live.length := List.length_pos_of_mem hp
          have hlt := s.allocated_count.isLt
          have hone : (1 : BitVec 64).toNat = 1 := rfl
          rw [List.length_erase_of_mem hp, BitVec.toNat_sub, hcount, hone]
          omega
      · cases hfree

theorem Counted.store (hs : Counted s) (hp : (s.mem p).isSome) :
    Counted { s with mem := s.mem.put p x } := by
  obtain ⟨live, hnd, hnull, hlive, hcount⟩ := hs
  exact ⟨live, hnd, hnull, fun a => (hlive a).trans (Heap.put_isSome_of_live hp).symm, hcount⟩

/-- In every history. -/
theorem counted_step {e : Event} (hs : Counted s) (hstep : histories.step s e s') : Counted s' := by
  cases e with
  | malloc answer x =>
    obtain ⟨p, hrun⟩ := hstep
    exact hs.malloc hrun
  | free p => exact hs.free hstep
  | store p x =>
    obtain ⟨hp, rfl⟩ := hstep
    exact hs.store hp
  | setNoallocateMode noallocate =>
    obtain rfl := hstep
    exact hs

theorem counted_of_reachable (hs : histories.Reachable s) : Counted s := by
  refine System.reachable_of_step ?_ counted_step hs
  rintro s ⟨hmem, hcount⟩
  refine ⟨[], List.nodup_nil, List.not_mem_nil, fun a => ?_, by rw [hcount]; rfl⟩
  rw [hmem]
  simp

/-- Without blocks the counter is 0. -/
theorem Counted.check (hs : Counted s) (hnone : ∀ a, s.mem a = none) : s.allocation_check = 0 := by
  obtain ⟨live, -, -, hlive, hcount⟩ := hs
  have hnil : live = [] := by
    refine List.eq_nil_iff_forall_not_mem.mpr fun a ha => ?_
    rw [hlive, hnone] at ha
    cases ha
  rw [hnil] at hcount
  exact BitVec.eq_of_toNat_eq hcount

end Counted

/-! ### The harness's `q_free` is `q_free` -/

section Plain
variable {s s' : Harness} {p q : Ptr}

theorem test_free_mem (hrun : s.test_free p = .ok s') : free s.mem p = .ok s'.mem := by
  unfold Harness.test_free at hrun
  split at hrun
  · cases hrun
  · split at hrun
    · rename_i hnull
      obtain rfl := Except.ok.inj hrun
      rw [free, if_pos hnull]
    · obtain ⟨mem, hfree, hrun⟩ := bind_ok hrun
      obtain rfl := Except.ok.inj hrun
      exact hfree

theorem freeLoop_mem {tail r : Ptr} : ∀ {n : ℕ} {s : Harness} {p : Ptr},
    Harness.freeLoop tail n s p = .ok (s', r) → freeLoop tail n s.mem p = .ok (s'.mem, r)
  | 0, s, p, hrun => by cases hrun
  | n + 1, s, p, hrun => by
      unfold Harness.freeLoop at hrun
      rw [freeLoop]
      split at hrun
      · rename_i heq
        obtain ⟨rfl, rfl⟩ := Prod.mk.inj (Except.ok.inj hrun)
        rw [if_pos heq]
      · rename_i hne
        obtain ⟨e, he, hrun⟩ := bind_ok hrun
        obtain ⟨s₁, hvalue, hrun⟩ := bind_ok hrun
        obtain ⟨s₂, hnode, hrun⟩ := bind_ok hrun
        rw [if_neg hne, he, ok_bind, test_free_mem hvalue, ok_bind, test_free_mem hnode, ok_bind]
        exact freeLoop_mem hrun

/-- On the memory the compiled `q_free` does what the source's does. -/
theorem q_free_mem {fuel : ℕ} (hrun : Harness.q_free fuel s q = .ok s') : q_free fuel s.mem q = .ok s'.mem := by
  unfold Harness.q_free at hrun
  rw [q_free]
  split at hrun
  · rename_i hnull
    obtain rfl := Except.ok.inj hrun
    rw [if_pos hnull]
  · rename_i hne
    obtain ⟨Q, hQ, hrun⟩ := bind_ok hrun
    rw [if_neg hne, hQ, ok_bind]
    split at hrun
    · rename_i hhead
      obtain ⟨⟨s₁, head⟩, hloop, hrun⟩ := bind_ok hrun
      obtain ⟨e, he, hrun⟩ := bind_ok hrun
      obtain ⟨s₂, hvalue, hrun⟩ := bind_ok hrun
      obtain ⟨s₃, hnode, hq⟩ := bind_ok hrun
      rw [if_pos hhead, freeLoop_mem hloop, ok_bind]
      simp only
      rw [he, ok_bind, test_free_mem hvalue, ok_bind, test_free_mem hnode, ok_bind]
      exact test_free_mem hq
    · rename_i hhead
      rw [if_neg hhead]
      exact test_free_mem hrun

end Plain

/-! ### What is freed -/

/-- The blocks of the elements, in the order in which they are freed. -/
def owned (cells : List (Ptr × Ptr)) : List Ptr := cells.flatMap fun c => [c.2, c.1]

/-- All blocks of the queue at `q`. -/
def blocks (q : Ptr) (cells : List (Ptr × Ptr)) : List Ptr := owned cells ++ [q]

/-- A consistent queue each of whose elements has a string of its own. -/
structure Stocked (h : Mem) (q : Ptr) (Q : QueueT) (cells : List (Ptr × Ptr)) : Prop
    extends Consistent h q Q cells where
  strings : ∀ c ∈ cells, ∃ bytes, h c.2 = some (.chars bytes)
  values : (cells.map Prod.snd).Nodup
  nonnullValues : NULL ∉ cells.map Prod.snd

/-- A queue that stands for a list of strings is one. -/
theorem Rep.stocked {h : Mem} {q : Ptr} {Q : QueueT} {ns : List Node} (hr : Rep h q Q ns) :
    Stocked h q Q (ns.map Node.cell) := by
  have hsnd : (ns.map Node.cell).map Prod.snd = ns.map Node.value := by
    rw [List.map_map]
    rfl
  refine ⟨hr.consistent, fun c hc => ?_, by rw [hsnd]; exact hr.values, ?_⟩
  · obtain ⟨n, hn, rfl⟩ := List.mem_map.mp hc
    exact ⟨_, hr.strings n hn⟩
  · rw [hsnd]
    intro hmem
    obtain ⟨n, hn, hnull⟩ := List.mem_map.mp hmem
    exact (hr.nonnull n hn).2 hnull

/-- The ledger after the blocks at `ps` were freed, one after the other. -/
def Harness.without (s : Harness) (ps : List Ptr) : Harness :=
  { s with
    mem := fun a => if a ∈ ps then none else s.mem a
    allocated_count := s.allocated_count - BitVec.ofNat 64 ps.length
    calls := s.calls ++ ps }

section Freed
variable {s : Harness} {h : Mem} {p q tail : Ptr} {Q : QueueT} {ps qs : List Ptr}
  {cells : List (Ptr × Ptr)}

theorem without_mem_of_not_mem {a : Ptr} (ha : a ∉ ps) : (s.without ps).mem a = s.mem a := if_neg ha

theorem without_nil : s.without [] = s := by
  simp [Harness.without]

theorem without_without : (s.without ps).without qs = s.without (ps ++ qs) := by
  simp only [Harness.without, Harness.mk.injEq, List.append_assoc, and_true]
  constructor
  · funext a
    by_cases ha : a ∈ ps
    · simp [ha]
    · simp [ha]
  · rw [List.length_append, BitVec.ofNat_add]
    bv_omega

theorem test_free_of {x : Block} (hmode : s.noallocate_mode = false) (hp : s.mem p = some x)
    (hne : p ≠ NULL) : s.test_free p = .ok (s.without [p]) := by
  have hdel : s.mem.del p = fun a => if a ∈ [p] then none else s.mem a := by
    funext a
    rcases eq_or_ne a p with rfl | hap
    · simp
    · simp [hap]
  rw [Harness.test_free, if_neg (by rw [hmode]; simp), if_neg hne, free_of hp hne, ok_bind, hdel]
  rfl

/-- An element is freed after its string. -/
theorem test_free_cell {a v nxt : Ptr} {bytes : List UInt8} (hmode : s.noallocate_mode = false)
    (ha : s.mem a = some (.ele ⟨v, nxt⟩)) (hv : s.mem v = some (.chars bytes)) (ha0 : a ≠ NULL)
    (hv0 : v ≠ NULL) :
    (do let s ← s.test_free v; s.test_free a) = .ok (s.without [v, a]) := by
  have hav : a ≠ v := by rintro rfl; rw [ha] at hv; cases hv
  have ha₁ : (s.without [v]).mem a = some (.ele ⟨v, nxt⟩) := by
    rw [without_mem_of_not_mem (by simpa using hav), ha]
  rw [test_free_of hmode hv hv0, ok_bind, test_free_of (s := s.without [v]) hmode ha₁ ha0,
    without_without]
  rfl

theorem mem_owned {a : Ptr} : a ∈ owned cells ↔ ∃ c ∈ cells, a = c.2 ∨ a = c.1 := by
  simp [owned]

theorem owned_concat (c : Ptr × Ptr) : owned (cells ++ [c]) = owned cells ++ [c.2, c.1] := by
  simp [owned]

/-- What the loop needs to know of the elements from `p` on: they are there, and nothing twice. -/
structure Chained (h : Mem) (p : Ptr) (cells : List (Ptr × Ptr)) (r : Ptr) : Prop where
  seg : Seg eleView h p cells r
  strings : ∀ c ∈ cells, ∃ bytes, h c.2 = some (.chars bytes)
  nodup : (owned cells).Nodup
  nonnull : NULL ∉ owned cells

/-- Once the first element is freed the others are still there. -/
theorem Chained.freed_first {a v nxt r : Ptr} (hc : Chained s.mem p ((a, v) :: cells) r)
    (hs : Seg eleView s.mem nxt cells r) : Chained (s.without [v, a]).mem nxt cells r := by
  have hnd : v ∉ a :: owned cells ∧ a ∉ owned cells ∧ (owned cells).Nodup := by
    have hnodup : (v :: a :: owned cells).Nodup := hc.nodup
    rw [List.nodup_cons, List.nodup_cons] at hnodup
    exact hnodup
  have hkeep : ∀ b ∈ owned cells, (s.without [v, a]).mem b = s.mem b := by
    intro b hb
    refine without_mem_of_not_mem ?_
    rw [List.mem_cons, List.mem_singleton, not_or]
    refine ⟨?_, ?_⟩
    · rintro rfl
      exact hnd.1 (List.mem_cons_of_mem a hb)
    · rintro rfl
      exact hnd.2.1 hb
  refine ⟨hs.congr fun b hb => ?_, fun c hcell => ?_, hnd.2.2, fun hnull => hc.nonnull ?_⟩
  · obtain ⟨c, hcell, rfl⟩ := List.mem_map.mp hb
    exact hkeep _ (mem_owned.mpr ⟨c, hcell, Or.inr rfl⟩)
  · rw [hkeep _ (mem_owned.mpr ⟨c, hcell, Or.inl rfl⟩)]
    exact hc.strings c (List.mem_cons_of_mem _ hcell)
  · exact List.mem_cons_of_mem v (List.mem_cons_of_mem a hnull)

/-- The loop frees the elements in front of `tail`, each with its string. -/
theorem freeLoop_spec : ∀ {cells : List (Ptr × Ptr)} {s : Harness} {p : Ptr} {fuel : ℕ},
    s.noallocate_mode = false → Chained s.mem p cells tail → tail ∉ cells.map Prod.fst →
    cells.length < fuel → Harness.freeLoop tail fuel s p = .ok (s.without (owned cells), tail)
  | _, _, _, 0, _, _, _, hfuel => absurd hfuel (Nat.not_lt_zero _)
  | [], s, p, fuel + 1, _, hc, _, _ => by
      obtain rfl : p = tail := hc.seg
      rw [Harness.freeLoop, if_pos rfl]
      change _ = Except.ok (s.without [], p)
      rw [without_nil]
  | (a, v) :: cells, s, p, fuel + 1, hmode, hc, hout, hfuel => by
      obtain ⟨rfl, nxt, ha, hs⟩ := chain_head hc.seg
      rw [List.map_cons, List.mem_cons, not_or] at hout
      obtain ⟨bytes, hv⟩ := hc.strings (p, v) (by simp)
      have hnull : NULL ∉ v :: p :: owned cells := hc.nonnull
      rw [List.mem_cons, List.mem_cons, not_or, not_or] at hnull
      have hcell := test_free_cell hmode ha hv (Ne.symm hnull.2.1) (Ne.symm hnull.1)
      have hlen : cells.length < fuel := by simpa using hfuel
      have hrest := freeLoop_spec (s := s.without [v, p]) hmode (hc.freed_first hs) hout.2 hlen
      rw [Harness.freeLoop, if_neg (Ne.symm hout.1), getEle_of ha, ok_bind]
      rw [without_without] at hrest
      obtain ⟨s₁, hvalue, hnode⟩ := bind_ok hcell
      rw [hvalue, ok_bind, hnode, ok_bind]
      exact hrest

/-- A block holds one kind of thing, so no block of a queue occurs twice. -/
theorem owned_nodup (hs : ∀ c ∈ cells, ∃ bytes, h c.2 = some (.chars bytes))
    (he : ∀ c ∈ cells, ∃ n, h c.1 = some (.ele ⟨c.2, n⟩)) (haddr : (cells.map Prod.fst).Nodup)
    (hvalue : (cells.map Prod.snd).Nodup) : (owned cells).Nodup := by
  induction cells with
  | nil => exact List.nodup_nil
  | cons c cells ih =>
    obtain ⟨a, v⟩ := c
    rw [List.map_cons, List.nodup_cons] at haddr hvalue
    have hapart : ∀ c ∈ (a, v) :: cells, ∀ d ∈ (a, v) :: cells, c.1 ≠ d.2 := by
      intro c hc d hd heq
      obtain ⟨n, hele⟩ := he c hc
      obtain ⟨bytes, hchars⟩ := hs d hd
      rw [heq, hchars] at hele
      cases hele
    have hrest := ih (fun c hc => hs c (List.mem_cons_of_mem _ hc))
      (fun c hc => he c (List.mem_cons_of_mem _ hc)) haddr.2 hvalue.2
    change (v :: a :: owned cells).Nodup
    rw [List.nodup_cons, List.nodup_cons, List.mem_cons, not_or]
    refine ⟨⟨(hapart (a, v) (by simp) (a, v) (by simp)).symm, fun hmem => ?_⟩, fun hmem => ?_, hrest⟩
    · obtain ⟨c, hc, heq | heq⟩ := mem_owned.mp hmem
      · exact hvalue.1 (List.mem_map.mpr ⟨c, hc, heq.symm⟩)
      · exact hapart c (List.mem_cons_of_mem _ hc) (a, v) (by simp) heq.symm
    · obtain ⟨c, hc, heq | heq⟩ := mem_owned.mp hmem
      · exact hapart (a, v) (by simp) c (List.mem_cons_of_mem _ hc) heq
      · exact haddr.1 (List.mem_map.mpr ⟨c, hc, heq.symm⟩)

theorem Stocked.chained (hc : Stocked h q Q cells) : Chained h Q.head cells NULL := by
  refine ⟨hc.chain, hc.strings, owned_nodup hc.strings (chain_live hc.chain)
    hc.toConsistent.nodup hc.values, fun hmem => ?_⟩
  obtain ⟨c, hcell, heq | heq⟩ := mem_owned.mp hmem
  · exact hc.nonnullValues (List.mem_map.mpr ⟨c, hcell, heq.symm⟩)
  · exact hc.nonnull (List.mem_map.mpr ⟨c, hcell, heq.symm⟩)

/-- The struct is none of the elements' blocks. -/
theorem Stocked.struct_not_mem (hc : Stocked h q Q cells) : q ∉ owned cells := by
  intro hmem
  obtain ⟨c, hcell, heq | heq⟩ := mem_owned.mp hmem
  · obtain ⟨bytes, hv⟩ := hc.strings c hcell
    rw [← heq, hc.queue] at hv
    cases hv
  · obtain ⟨n, ha⟩ := chain_live hc.chain c hcell
    rw [← heq, hc.queue] at ha
    cases ha

theorem Stocked.blocks_nodup (hc : Stocked h q Q cells) : (blocks q cells).Nodup := by
  refine List.nodup_append.mpr ⟨hc.chained.nodup, by simp, ?_⟩
  rintro a ha b hb rfl
  obtain rfl := List.mem_singleton.mp hb
  exact hc.struct_not_mem ha

/-- What is in front of the last element. -/
theorem Chained.front {r : Ptr} {c : Ptr × Ptr} (hc : Chained h p (cells ++ [c]) r) :
    Chained h p cells c.1 ∧ ∃ n, h c.1 = some (.ele ⟨c.2, n⟩) := by
  obtain ⟨a, v⟩ := c
  obtain ⟨m, hfront, hlast⟩ := Seg.append.mp hc.seg
  obtain ⟨rfl, n, ha, -⟩ := chain_head hlast
  have hnd := hc.nodup
  rw [owned_concat, List.nodup_append] at hnd
  refine ⟨⟨hfront, fun d hd => hc.strings d (List.mem_append_left _ hd), hnd.1, fun hnull => ?_⟩,
    n, ha⟩
  refine hc.nonnull ?_
  rw [owned_concat]
  exact List.mem_append_left _ hnull

/-- The whole call. -/
theorem Stocked.q_free {fuel : ℕ} (hc : Stocked s.mem q Q cells) (hmode : s.noallocate_mode = false)
    (hfuel : cells.length < fuel) : Harness.q_free fuel s q = .ok (s.without (blocks q cells)) := by
  have hstruct : ((s.without (owned cells)).test_free q) = .ok (s.without (blocks q cells)) := by
    have hQ : (s.without (owned cells)).mem q = some (.queue Q) := by
      rw [without_mem_of_not_mem hc.struct_not_mem, hc.queue]
    rw [test_free_of (s := s.without (owned cells)) hmode hQ hc.here, without_without]
    rfl
  rw [Harness.q_free, if_neg hc.here, getQueue_of hc.queue, ok_bind]
  rcases List.eq_nil_or_concat' cells with rfl | ⟨front, c, rfl⟩
  · have hnil : Q.head = NULL := hc.toConsistent.empty_iff.mpr rfl
    have hself : s.without (owned []) = s := without_nil
    rw [hself] at hstruct
    rw [if_neg (not_not.mpr hnil)]
    exact hstruct
  · obtain ⟨a, v⟩ := c
    have hhead : Q.head ≠ NULL := fun hnull => by
      have hnil := hc.toConsistent.empty_iff.mp hnull
      simp at hnil
    obtain ⟨hfront, n, ha⟩ := hc.chained.front
    have htail : Q.tail = a := hc.toConsistent.tail_of_concat
    have hnodup := hc.chained.nodup
    rw [owned_concat, List.nodup_append] at hnodup
    have hout : a ∉ owned front ∧ v ∉ owned front := by
      constructor
      · exact fun hmem => hnodup.2.2 a hmem a (by simp) rfl
      · exact fun hmem => hnodup.2.2 v hmem v (by simp) rfl
    have hnot : a ∉ front.map Prod.fst := by
      intro hmem
      obtain ⟨d, hd, heq⟩ := List.mem_map.mp hmem
      exact hout.1 (mem_owned.mpr ⟨d, hd, Or.inr heq.symm⟩)
    have hlen : front.length < fuel := by
      rw [List.length_append] at hfuel
      omega
    have hloop := freeLoop_spec hmode hfront hnot hlen
    obtain ⟨bytes, hv⟩ := hc.strings (a, v) (by simp)
    have hnull := hc.chained.nonnull
    rw [owned_concat, List.mem_append, List.mem_cons, List.mem_singleton, not_or, not_or] at hnull
    have ha₁ : (s.without (owned front)).mem a = some (.ele ⟨v, n⟩) := by
      rw [without_mem_of_not_mem hout.1]
      exact ha
    have hv₁ : (s.without (owned front)).mem v = some (.chars bytes) := by
      rw [without_mem_of_not_mem hout.2]
      exact hv
    have hcell := test_free_cell (s := s.without (owned front)) hmode ha₁ hv₁
      (Ne.symm hnull.2.2) (Ne.symm hnull.2.1)
    rw [without_without, ← owned_concat (a, v)] at hcell
    obtain ⟨s₁, hvalue, hnode⟩ := bind_ok hcell
    rw [if_pos hhead, htail, hloop, ok_bind]
    simp only
    rw [getEle_of ha₁, ok_bind, hvalue, ok_bind, hnode, ok_bind]
    exact hstruct

/-! ### The ledger afterwards -/

/-- Giving back live blocks one by one is a history. -/
theorem run_without {s : Harness} : ∀ {ps : List Ptr}, s.noallocate_mode = false → ps.Nodup →
    (∀ a ∈ ps, a ≠ NULL ∧ (s.mem a).isSome) → histories.Run s (ps.map .free) (s.without ps)
  | [], _, _, _ => by
      rw [without_nil]
      exact .nil s
  | a :: ps, hmode, hnd, hlive => by
      rw [List.nodup_cons] at hnd
      obtain ⟨ha0, hsome⟩ := hlive a (by simp)
      obtain ⟨x, hx⟩ := Option.isSome_iff_exists.mp hsome
      have hlater : ∀ b ∈ ps, b ≠ NULL ∧ ((s.without [a]).mem b).isSome := by
        intro b hb
        obtain ⟨hb0, hbsome⟩ := hlive b (List.mem_cons_of_mem a hb)
        refine ⟨hb0, ?_⟩
        rw [without_mem_of_not_mem]
        · exact hbsome
        · rw [List.mem_singleton]
          rintro rfl
          exact hnd.1 hb
      have hrest := run_without (s := s.without [a]) hmode hnd.2 hlater
      rw [without_without] at hrest
      exact .cons (test_free_of hmode hx ha0) hrest

theorem Stocked.blocks_live {a : Ptr} (hc : Stocked h q Q cells) (ha : a ∈ blocks q cells) :
    a ≠ NULL ∧ (h a).isSome := by
  rcases List.mem_append.mp ha with ha | ha
  · refine ⟨fun hnull => hc.chained.nonnull (hnull ▸ ha), ?_⟩
    obtain ⟨c, hcell, rfl | rfl⟩ := mem_owned.mp ha
    · obtain ⟨bytes, hv⟩ := hc.strings c hcell
      rw [hv]
      rfl
    · obtain ⟨n, he⟩ := chain_live hc.chain c hcell
      rw [he]
      rfl
  · obtain rfl := List.mem_singleton.mp ha
    refine ⟨hc.here, ?_⟩
    rw [hc.queue]
    rfl

/-- `q_free` of any consistent queue: it ends without a fault, has called `free` on each block of
    the queue once and on nothing else, and leaves the other blocks alone. In a history the counter
    is 0 as soon as the other blocks are given back, before the call or after it. -/
theorem q_free_releases (hc : Stocked s.mem q Q cells) (hmode : s.noallocate_mode = false) :
    ∃ s', Converges (fun fuel => Harness.q_free fuel s q) s' ∧
      Converges (fun fuel => q_free fuel s.mem q) s'.mem ∧
      s'.calls = s.calls ++ blocks q cells ∧ (blocks q cells).Nodup ∧
      (∀ a, a ∈ blocks q cells ↔ a = q ∨ a ∈ cells.map Prod.fst ∨ a ∈ cells.map Prod.snd) ∧
      (∀ a ∈ blocks q cells, s'.mem a = none) ∧ (∀ a, a ∉ blocks q cells → s'.mem a = s.mem a) ∧
      (histories.Reachable s → histories.Reachable s' ∧
        ((∀ a, a ∉ blocks q cells → s.mem a = none) → s'.allocation_check = 0) ∧
        ∀ es s'', histories.Run s' es s'' → (∀ a, s''.mem a = none) → s''.allocation_check = 0) := by
  have hrun : ∀ fuel, cells.length < fuel → Harness.q_free fuel s q = .ok (s.without (blocks q cells)) :=
    fun fuel hfuel => hc.q_free hmode hfuel
  have hgone : ∀ a ∈ blocks q cells, (s.without (blocks q cells)).mem a = none := fun a ha => if_pos ha
  have hkept : ∀ a, a ∉ blocks q cells → (s.without (blocks q cells)).mem a = s.mem a :=
    fun a ha => if_neg ha
  refine ⟨s.without (blocks q cells), ⟨cells.length + 1, hrun⟩,
    ⟨cells.length + 1, fun fuel hfuel => q_free_mem (hrun fuel hfuel)⟩, rfl, hc.blocks_nodup,
    fun a => ?_, hgone, hkept, fun hreach => ?_⟩
  · rw [blocks, List.mem_append, List.mem_singleton, mem_owned, List.mem_map, List.mem_map]
    constructor
    · rintro (⟨c, hcell, rfl | rfl⟩ | rfl)
      · exact Or.inr (Or.inr ⟨c, hcell, rfl⟩)
      · exact Or.inr (Or.inl ⟨c, hcell, rfl⟩)
      · exact Or.inl rfl
    · rintro (rfl | ⟨c, hcell, rfl⟩ | ⟨c, hcell, rfl⟩)
      · exact Or.inr rfl
      · exact Or.inl ⟨c, hcell, Or.inr rfl⟩
      · exact Or.inl ⟨c, hcell, Or.inl rfl⟩
  · have hafter : histories.Reachable (s.without (blocks q cells)) :=
      hreach.run (run_without hmode hc.blocks_nodup fun a ha => hc.blocks_live ha)
    refine ⟨hafter, fun hothers => ?_, fun es s'' hlater hnone => ?_⟩
    · refine (counted_of_reachable hafter).check fun a => ?_
      rcases em (a ∈ blocks q cells) with ha | ha
      · exact hgone a ha
      · rw [hkept a ha, hothers a ha]
    · exact (counted_of_reachable (hafter.run hlater)).check hnone

end Freed

/-- The queue of two elements at 16, with its strings at 64 and 80. -/
def pair : Mem :=
  ((((Heap.put (fun _ => none) 16 (.queue ⟨32, 48, 2⟩)).put 32 (.ele ⟨64, 48⟩)).put 48
    (.ele ⟨80, NULL⟩)).put 64 (.chars [97, 0])).put 80 (.chars [98, 0])

theorem q_free_releases_pair : ∃ s', Converges (fun fuel => Harness.q_free fuel ⟨pair, 5, false, []⟩ 16) s' ∧
    s'.calls = [64, 32, 80, 48, 16] ∧ ∀ a ∈ s'.calls, s'.mem a = none := by
  have hc : Stocked pair 16 ⟨32, 48, 2⟩ [(32, 64), (48, 80)] := by
    refine ⟨⟨by decide, rfl, ?_, by decide, rfl, ?_⟩, ?_, by decide, by decide⟩
    · exact ⟨rfl, _, 48, rfl, rfl, rfl, _, NULL, rfl, rfl, rfl⟩
    · intro c hlast
      obtain rfl := Option.some.inj hlast
      rfl
    · intro c hcell
      rcases List.mem_cons.mp hcell with rfl | hcell
      · exact ⟨[97, 0], rfl⟩
      · obtain rfl := List.mem_singleton.mp hcell
        exact ⟨[98, 0], rfl⟩
  obtain ⟨s', hrun, -, hcalls, -, -, hgone, -⟩ :=
    q_free_releases (s := ⟨pair, 5, false, []⟩) hc rfl
  have hlist : s'.calls = [64, 32, 80, 48, 16] := hcalls
  refine ⟨s', hrun, hlist, fun a ha => hgone a ?_⟩
  rw [hlist] at ha
  exact ha

end Labs.Queue
