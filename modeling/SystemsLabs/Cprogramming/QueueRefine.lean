import SystemsLabs.Cprogramming.QueueSpec
import SystemsLabs.Schemes.Transition
import Mathlib.Algebra.Order.Ring.Nat
import Mathlib.Data.List.Perm.Subperm
import Mathlib.Data.List.Range

/-! @lab cprogramming | file:queue.c | scheme:transition | main result:when the queue is a list

    The queue stands for the list of its strings: the chain from `head` ends in `NULL`, `size` counts
    it and `tail` is its last element. A call refines the list operation unless it is an insertion at
    the head of a queue whose `head` is `NULL` and whose `tail` is not: `q_remove_head` never clears
    the tail when it takes the last element, and `q_insert_head` sets it only when it is `NULL`, so
    the tail goes on pointing to a freed element. The `int` that `q_size` returns wraps from `2^31`
    elements on. `Safe` excludes exactly these two. -/

namespace Labs.Queue
open Schemes

/-- An element with its string. -/
structure Node where
  addr : Ptr
  value : Ptr
  str : CString

def Node.cell (n : Node) : Ptr × Ptr := (n.addr, n.value)

/-- The queue at `q` is `Q`, with the elements `ns`. -/
structure Rep (h : Mem) (q : Ptr) (Q : QueueT) (ns : List Node) : Prop where
  here : q ≠ NULL
  queue : h q = some (.queue Q)
  chain : Seg eleView h Q.head (ns.map Node.cell) NULL
  strings : ∀ n ∈ ns, h n.value = some (.chars (n.str.bytes ++ [0]))
  addrs : (ns.map Node.addr).Nodup
  values : (ns.map Node.value).Nodup
  nonnull : ∀ n ∈ ns, n.addr ≠ NULL ∧ n.value ≠ NULL
  size : Q.size.toNat = ns.length
  last : ∀ n, ns.getLast? = some n → Q.tail = n.addr

/-- The queue at `q` holds the strings of `l`. -/
def Refines (h : Mem) (q : Ptr) (l : List CString) : Prop :=
  ∃ Q ns, Rep h q Q ns ∧ ns.map Node.str = l

/-! ### The abstract queue -/

/-- Whether the allocator finds the memory a call asks for. -/
def answered (h : Mem) : Op → Bool
  | .insertHead _ node val => decide (Answers h node val)
  | .insertTail _ node val => decide (Answers h node val)
  | _ => true

/-- The calls on a list of strings; `space`: the allocator finds the memory. -/
def listStep (l : List CString) (space : Bool) : Op → List CString × Ret
  | .insertHead s _ _ => if space then (s :: l, .bool true) else (l, .bool false)
  | .insertTail s _ _ => if space then (l ++ [s], .bool true) else (l, .bool false)
  | .removeHead sp bufsize =>
    match l with
    | [] => ([], .removed false sp)
    | s :: l => (l, .removed true (copied s bufsize sp))
  | .reverse => (l.reverse, .void)
  | .size => (l, .int l.length)

/-- A call that does what the list does: it ends, with the list's result and representing the
    list's next state. -/
def Simulates (h : Mem) (q : Ptr) (l : List CString) (op : Op) : Prop :=
  ∃ h', Converges (fun fuel => exec fuel h q op) (h', (listStep l (answered h op) op).2) ∧
    Refines h' q (listStep l (answered h op) op).1

/-- Not an insertion at the head of a queue with a stale tail, and not the size of a queue too long
    for an `int`. A tail that happens to be the new element is not stale. -/
def Safe (h : Mem) (q : Ptr) : Op → Prop
  | .insertHead _ node val => ∀ Q, Answers h node val → h q = some (.queue Q) → Q.head = NULL →
    Q.tail = NULL ∨ Q.tail = node
  | .size => ∀ Q, h q = some (.queue Q) → Q.size.toNat < 2 ^ 31
  | _ => True

/-! ### Facts about the representation -/

section Rep
variable {h h' : Mem} {q : Ptr} {Q Q' : QueueT} {ns : List Node} {n : Node}

theorem cell_fst (ns : List Node) : (ns.map Node.cell).map Prod.fst = ns.map Node.addr := by
  rw [List.map_map]; rfl

theorem Rep.head_null (hr : Rep h q Q ns) : Q.head = NULL ↔ ns = [] := by
  cases ns with
  | nil => exact ⟨fun _ => rfl, fun _ => hr.chain⟩
  | cons n ns =>
    obtain ⟨hhead, -⟩ := chain_head hr.chain
    refine ⟨fun hnull => absurd (hhead.symm.trans hnull) (hr.nonnull n (by simp)).1, nofun⟩

theorem Rep.ele (hr : Rep h q Q ns) (hn : n ∈ ns) :
    ∃ nxt, h n.addr = some (.ele ⟨n.value, nxt⟩) :=
  chain_live hr.chain n.cell (List.mem_map_of_mem hn)

/-- The addresses the queue occupies hold different kinds of blocks. -/
theorem Rep.addr_ne (hr : Rep h q Q ns) (hn : n ∈ ns) : n.addr ≠ q := by
  obtain ⟨e, he⟩ := hr.ele hn
  rintro rfl
  rw [hr.queue] at he; cases he

theorem Rep.value_ne (hr : Rep h q Q ns) (hn : n ∈ ns) : n.value ≠ q := by
  rintro rfl
  have := hr.strings n hn
  rw [hr.queue] at this; cases this

theorem Rep.value_ne_addr {m : Node} (hr : Rep h q Q ns) (hn : n ∈ ns) (hm : m ∈ ns) :
    n.value ≠ m.addr := by
  obtain ⟨e, he⟩ := hr.ele hm
  intro heq
  have := hr.strings n hn
  rw [heq, he] at this; cases this

/-- What is allocated now is none of the queue's blocks. -/
theorem Rep.fresh {a : Ptr} (hr : Rep h q Q ns) (hfree : h a = none) (hn : n ∈ ns) :
    n.addr ≠ a ∧ n.value ≠ a := by
  constructor
  · rintro rfl
    obtain ⟨e, he⟩ := hr.ele hn
    rw [hfree] at he; cases he
  · rintro rfl
    have := hr.strings n hn
    rw [hfree] at this; cases this

theorem nodup_words {w : ℕ} {l : List (BitVec w)} (hl : l.Nodup) (h0 : ∀ a ∈ l, a ≠ 0) :
    l.length < 2 ^ w := by
  have hnd : ((0 :: l).map BitVec.toNat).Nodup := by
    refine List.Nodup.map (fun a b hab => BitVec.eq_of_toNat_eq hab) (List.nodup_cons.mpr ⟨?_, hl⟩)
    intro hmem
    exact h0 0 hmem rfl
  have hsub : ((0 :: l).map BitVec.toNat) ⊆ List.range (2 ^ w) := by
    intro x hx
    obtain ⟨a, -, rfl⟩ := List.mem_map.mp hx
    exact List.mem_range.mpr a.isLt
  have hle := (hnd.subperm hsub).length_le
  rw [List.length_map, List.length_cons, List.length_range] at hle
  exact hle

/-- Pointers are 64-bit words and the blocks are at different ones, so `size` never wraps. -/
theorem Rep.short (hr : Rep h q Q ns) : ns.length + 1 < 2 ^ 64 := by
  have hnd : (q :: ns.map Node.addr).Nodup := by
    refine List.nodup_cons.mpr ⟨?_, hr.addrs⟩
    intro hmem
    obtain ⟨n, hn, hnq⟩ := List.mem_map.mp hmem
    exact hr.addr_ne hn hnq
  have hlt := nodup_words hnd ?_
  · rwa [List.length_cons, List.length_map] at hlt
  · intro a ha
    rcases List.mem_cons.mp ha with rfl | ha
    · exact hr.here
    · obtain ⟨n, hn, rfl⟩ := List.mem_map.mp ha
      exact (hr.nonnull n hn).1

theorem Rep.size_succ (hr : Rep h q Q ns) : (Q.size + 1).toNat = ns.length + 1 := by
  have hshort := hr.short
  have hsize := hr.size
  have hone : (1 : BitVec 64).toNat = 1 := rfl
  rw [BitVec.toNat_add, hsize, hone]
  omega

end Rep

/-! ### Insertions keep the representation -/

section Insert
variable {h h' : Mem} {q node val tail : Ptr} {Q : QueueT} {ns : List Node} {s : CString}

theorem Rep.cons (hr : Rep h q Q ns) (ha : Answers h node val)
    (hQ : h' q = some (.queue ⟨node, tail, Q.size + 1⟩)) (hnode : h' node = some (.ele ⟨val, Q.head⟩))
    (hval : h' val = some (.chars (s.bytes ++ [0])))
    (hframe : ∀ a, a ≠ q → a ≠ node → a ≠ val → h' a = h a)
    (htail : tail = if ns = [] then node else Q.tail) :
    Rep h' q ⟨node, tail, Q.size + 1⟩ (⟨node, val, s⟩ :: ns) := by
  obtain ⟨⟨hn0, hnfree⟩, ⟨hv0, hvfree⟩, hvn⟩ := ha
  have hold : ∀ m ∈ ns, h' m.addr = h m.addr ∧ h' m.value = h m.value := by
    intro m hm
    have hn := hr.fresh hnfree hm
    have hv := hr.fresh hvfree hm
    exact ⟨hframe _ (hr.addr_ne hm) hn.1 hv.1, hframe _ (hr.value_ne hm) hn.2 hv.2⟩
  refine ⟨hr.here, hQ, ⟨rfl, _, Q.head, hnode, rfl, hr.chain.congr ?_⟩, ?_, ?_, ?_, ?_, ?_, ?_⟩
  · intro a ha
    rw [cell_fst] at ha
    obtain ⟨m, hm, rfl⟩ := List.mem_map.mp ha
    exact (hold m hm).1
  · intro m hm
    rcases List.mem_cons.mp hm with rfl | hm
    · exact hval
    · rw [(hold m hm).2]
      exact hr.strings m hm
  · refine List.nodup_cons.mpr ⟨?_, hr.addrs⟩
    intro hmem
    obtain ⟨m, hm, hma⟩ := List.mem_map.mp hmem
    exact (hr.fresh hnfree hm).1 hma
  · refine List.nodup_cons.mpr ⟨?_, hr.values⟩
    intro hmem
    obtain ⟨m, hm, hma⟩ := List.mem_map.mp hmem
    exact (hr.fresh hvfree hm).2 hma
  · intro m hm
    rcases List.mem_cons.mp hm with rfl | hm
    · exact ⟨hn0, hv0⟩
    · exact hr.nonnull m hm
  · exact hr.size_succ
  · intro m hm
    cases ns with
    | nil =>
      obtain rfl := Option.some.inj hm
      exact htail
    | cons m' ns =>
      rw [List.getLast?_cons_cons] at hm
      rw [htail, if_neg (List.cons_ne_nil _ _)]
      exact hr.last m hm

/-- Behind the last element `n`. -/
theorem Rep.snoc {n : Node} (hr : Rep h q Q (ns ++ [n])) (ha : Answers h node val)
    (hQ : h' q = some (.queue ⟨Q.head, node, Q.size + 1⟩))
    (hlast : h' n.addr = some (.ele ⟨n.value, node⟩)) (hnode : h' node = some (.ele ⟨val, NULL⟩))
    (hval : h' val = some (.chars (s.bytes ++ [0])))
    (hframe : ∀ a, a ≠ q → a ≠ n.addr → a ≠ node → a ≠ val → h' a = h a) :
    Rep h' q ⟨Q.head, node, Q.size + 1⟩ (ns ++ [n] ++ [⟨node, val, s⟩]) := by
  obtain ⟨⟨hn0, hnfree⟩, ⟨hv0, hvfree⟩, hvn⟩ := ha
  have hmem : n ∈ ns ++ [n] := by simp
  have hstr : ∀ m ∈ ns ++ [n], h' m.value = h m.value := by
    intro m hm
    exact hframe _ (hr.value_ne hm) (hr.value_ne_addr hm hmem) (hr.fresh hnfree hm).2
      (hr.fresh hvfree hm).2
  have hold : ∀ m ∈ ns, h' m.addr = h m.addr := by
    intro m hm
    have hm' : m ∈ ns ++ [n] := by simp [hm]
    refine hframe _ (hr.addr_ne hm') ?_ (hr.fresh hnfree hm').1 (hr.fresh hvfree hm').1
    intro heq
    have hnd := hr.addrs
    rw [List.map_append, List.nodup_append] at hnd
    exact hnd.2.2 _ (List.mem_map_of_mem hm) _ (by simp) heq
  have hchain := hr.chain
  rw [List.map_append] at hchain
  obtain ⟨p, hfront, hback⟩ := Seg.append.mp hchain
  obtain ⟨rfl, -⟩ := chain_head hback
  refine ⟨hr.here, hQ, ?_, ?_, ?_, ?_, ?_, ?_, ?_⟩
  · rw [List.map_append, List.map_append, List.append_assoc]
    refine Seg.append.mpr ⟨n.addr, hfront.congr ?_, rfl, _, node, hlast, rfl, rfl, _, NULL, hnode,
      rfl, rfl⟩
    intro a ha
    rw [cell_fst] at ha
    obtain ⟨m, hm, rfl⟩ := List.mem_map.mp ha
    exact hold m hm
  · intro m hm
    rcases List.mem_append.mp hm with hm | hm
    · rw [hstr m hm]
      exact hr.strings m hm
    · obtain rfl := List.mem_singleton.mp hm
      exact hval
  · rw [List.map_append]
    refine List.nodup_append.mpr ⟨hr.addrs, by simp, ?_⟩
    rintro a ha b hb rfl
    obtain rfl := List.mem_singleton.mp hb
    obtain ⟨m, hm, hma⟩ := List.mem_map.mp ha
    exact (hr.fresh hnfree hm).1 hma
  · rw [List.map_append]
    refine List.nodup_append.mpr ⟨hr.values, by simp, ?_⟩
    rintro a ha b hb rfl
    obtain rfl := List.mem_singleton.mp hb
    obtain ⟨m, hm, hma⟩ := List.mem_map.mp ha
    exact (hr.fresh hvfree hm).2 hma
  · intro m hm
    rcases List.mem_append.mp hm with hm | hm
    · exact hr.nonnull m hm
    · obtain rfl := List.mem_singleton.mp hm
      exact ⟨hn0, hv0⟩
  · rw [hr.size_succ, List.append_assoc, List.length_append, List.length_append]
    rfl
  · intro m hm
    rw [List.getLast?_concat] at hm
    obtain rfl := Option.some.inj hm
    rfl

end Insert

/-! ### Removal and reversal keep the representation -/

theorem Rep.uncons {h : Mem} {q nxt : Ptr} {Q : QueueT} {n : Node} {ns : List Node}
    (hr : Rep h q Q (n :: ns)) (hnxt : Seg eleView h nxt (ns.map Node.cell) NULL) :
    Rep (((h.put q (.queue ⟨nxt, Q.tail, Q.size - 1⟩)).del n.value).del n.addr) q
      ⟨nxt, Q.tail, Q.size - 1⟩ ns := by
  have hn : n ∈ n :: ns := by simp
  have haddrs := List.nodup_cons.mp hr.addrs
  have hvalues := List.nodup_cons.mp hr.values
  have haddr : ∀ m ∈ ns, m.addr ≠ n.addr ∧ m.addr ≠ n.value ∧ m.addr ≠ q := by
    intro m hm
    have hm' : m ∈ n :: ns := List.mem_cons_of_mem n hm
    refine ⟨?_, (hr.value_ne_addr hn hm').symm, hr.addr_ne hm'⟩
    intro heq
    exact haddrs.1 (heq ▸ List.mem_map_of_mem hm)
  have hvalue : ∀ m ∈ ns, m.value ≠ n.addr ∧ m.value ≠ n.value ∧ m.value ≠ q := by
    intro m hm
    have hm' : m ∈ n :: ns := List.mem_cons_of_mem n hm
    refine ⟨hr.value_ne_addr hm' hn, ?_, hr.value_ne hm'⟩
    intro heq
    exact hvalues.1 (heq ▸ List.mem_map_of_mem hm)
  refine ⟨hr.here, ?_, hnxt.congr ?_, ?_, haddrs.2, hvalues.2, ?_, ?_, ?_⟩
  · rw [Heap.del_of_ne (hr.addr_ne hn).symm, Heap.del_of_ne (hr.value_ne hn).symm, Heap.put_self]
  · intro a ha
    rw [cell_fst] at ha
    obtain ⟨m, hm, rfl⟩ := List.mem_map.mp ha
    obtain ⟨h₁, h₂, h₃⟩ := haddr m hm
    rw [Heap.del_of_ne h₁, Heap.del_of_ne h₂, Heap.put_of_ne h₃]
  · intro m hm
    obtain ⟨h₁, h₂, h₃⟩ := hvalue m hm
    rw [Heap.del_of_ne h₁, Heap.del_of_ne h₂, Heap.put_of_ne h₃]
    exact hr.strings m (List.mem_cons_of_mem n hm)
  · intro m hm
    exact hr.nonnull m (List.mem_cons_of_mem n hm)
  · have hsize := hr.size
    have hshort := hr.short
    rw [List.length_cons] at hsize hshort
    have hone : (1 : BitVec 64).toNat = 1 := rfl
    change (Q.size - 1).toNat = ns.length
    rw [BitVec.toNat_sub, hsize, hone]
    omega
  · intro m hm
    refine hr.last m ?_
    cases ns with
    | nil => cases hm
    | cons m' ns => rwa [List.getLast?_cons_cons]

theorem Rep.reverse {h h' : Mem} {q : Ptr} {Q : QueueT} {n : Node} {ns : List Node}
    (hr : Rep h q Q (n :: ns)) (hQ : h' q = some (.queue ⟨Q.tail, Q.head, Q.size⟩))
    (hchain : Seg eleView h' Q.tail ((n :: ns).map Node.cell).reverse NULL)
    (hframe : ∀ a, a ≠ q → a ∉ ((n :: ns).map Node.cell).map Prod.fst → h' a = h a) :
    Rep h' q ⟨Q.tail, Q.head, Q.size⟩ (n :: ns).reverse := by
  refine ⟨hr.here, hQ, ?_, ?_, ?_, ?_, ?_, ?_, ?_⟩
  · rw [List.map_reverse]
    exact hchain
  · intro m hm
    rw [List.mem_reverse] at hm
    rw [hframe m.value (hr.value_ne hm)]
    · exact hr.strings m hm
    · intro hmem
      rw [cell_fst] at hmem
      obtain ⟨m', hm', heq⟩ := List.mem_map.mp hmem
      exact hr.value_ne_addr hm hm' heq.symm
  · rw [List.map_reverse]
    exact List.nodup_reverse.mpr hr.addrs
  · rw [List.map_reverse]
    exact List.nodup_reverse.mpr hr.values
  · intro m hm
    exact hr.nonnull m (List.mem_reverse.mp hm)
  · rw [List.length_reverse]
    exact hr.size
  · intro m hm
    rw [List.getLast?_reverse] at hm
    obtain rfl := Option.some.inj hm
    exact (chain_head hr.chain).1

/-! ### Each call simulates the list's -/

section Calls
variable {h : Mem} {q : Ptr} {l : List CString}

theorem Rep.tail_ne {Q : QueueT} {ns : List Node} (hr : Rep h q Q ns) (hne : ns ≠ []) :
    Q.tail ≠ NULL := by
  rw [hr.last _ (List.getLast?_eq_getLast_of_ne_nil hne)]
  exact (hr.nonnull _ (List.getLast_mem hne)).1

theorem insertHead_simulates {s : CString} {node val : Ptr} (hr : Refines h q l)
    (hsafe : Safe h q (.insertHead s node val)) : Simulates h q l (.insertHead s node val) := by
  obtain ⟨Q, ns, hr, rfl⟩ := hr
  rcases em (Answers h node val) with ha | hno
  · obtain ⟨h', hrun, hQ, hnode, hval, hframe⟩ := insert_head_spec s hr.here hr.queue ha
    have htail : (if Q.tail = NULL then node else Q.tail) = if ns = [] then node else Q.tail := by
      rcases eq_or_ne ns [] with rfl | hne
      · rw [if_pos rfl]
        rcases hsafe Q ha hr.queue (hr.head_null.mpr rfl) with ht | ht
        · rw [if_pos ht]
        · rw [ht, ite_self]
      · rw [if_neg hne, if_neg (hr.tail_ne hne)]
    have hstep : listStep (ns.map Node.str) (answered h (.insertHead s node val))
        (.insertHead s node val) = (s :: ns.map Node.str, .bool true) := by
      simp [listStep, answered, ha]
    refine ⟨h', ⟨0, ?_⟩, ?_⟩
    · intro fuel _
      rw [hstep]
      change exec fuel h q (.insertHead s node val) = _
      rw [exec, hrun]
      rfl
    · rw [hstep]
      exact ⟨_, _, hr.cons ha hQ hnode hval hframe htail, rfl⟩
  · have hstep : listStep (ns.map Node.str) (answered h (.insertHead s node val))
        (.insertHead s node val) = (ns.map Node.str, .bool false) := by
      simp [listStep, answered, hno]
    refine ⟨h, ⟨0, ?_⟩, ?_⟩
    · intro fuel _
      rw [hstep]
      change exec fuel h q (.insertHead s node val) = _
      rw [exec, insert_head_fail s hno]
      rfl
    · rw [hstep]
      exact ⟨Q, ns, hr, rfl⟩

theorem insertTail_simulates (s : CString) (node val : Ptr) (hr : Refines h q l) :
    Simulates h q l (.insertTail s node val) := by
  obtain ⟨Q, ns, hr, rfl⟩ := hr
  rcases em (Answers h node val) with ha | hno
  · have hstep : listStep (ns.map Node.str) (answered h (.insertTail s node val))
        (.insertTail s node val) = (ns.map Node.str ++ [s], .bool true) := by
      simp [listStep, answered, ha]
    have hrun : ∃ h', q_insert_tail h q s node val = .ok (h', true) ∧
        Refines h' q (ns.map Node.str ++ [s]) := by
      rcases List.eq_nil_or_concat' ns with rfl | ⟨ns, n, rfl⟩
      · have hsize : Q.size = 0 := BitVec.eq_of_toNat_eq hr.size
        obtain ⟨h', hrun, hQ, hnode, hval, hframe⟩ := insert_tail_empty s hr.here hr.queue hsize ha
        have hnode' : h' node = some (.ele ⟨val, Q.head⟩) := by
          rw [hr.head_null.mpr rfl]
          exact hnode
        exact ⟨h', hrun, _, _, hr.cons ha hQ hnode' hval hframe rfl, rfl⟩
      · have hsize : Q.size ≠ 0 := by
          intro h0
          have := hr.size
          rw [h0, List.length_append] at this
          cases this
        have hlast := hr.last n List.getLast?_concat
        obtain ⟨nxt, he⟩ := hr.ele (n := n) (by simp)
        rw [← hlast] at he
        obtain ⟨h', hrun, hQ, hnew, hnode, hval, hframe⟩ :=
          insert_tail_nonempty s hr.here hr.queue hsize he ha
        rw [hlast] at hnew hframe
        exact ⟨h', hrun, _, _, hr.snoc ha hQ hnew hnode hval hframe, by simp⟩
    obtain ⟨h', hrun, href⟩ := hrun
    refine ⟨h', ⟨0, ?_⟩, ?_⟩
    · intro fuel _
      rw [hstep]
      change exec fuel h q (.insertTail s node val) = _
      rw [exec, hrun]
      rfl
    · rw [hstep]
      exact href
  · have hstep : listStep (ns.map Node.str) (answered h (.insertTail s node val))
        (.insertTail s node val) = (ns.map Node.str, .bool false) := by
      simp [listStep, answered, hno]
    refine ⟨h, ⟨0, ?_⟩, ?_⟩
    · intro fuel _
      rw [hstep]
      change exec fuel h q (.insertTail s node val) = _
      rw [exec, insert_tail_fail s hno]
      rfl
    · rw [hstep]
      exact ⟨Q, ns, hr, rfl⟩

theorem removeHead_simulates (sp : Option Buffer) (bufsize : BitVec 64) (hr : Refines h q l) :
    Simulates h q l (.removeHead sp bufsize) := by
  obtain ⟨Q, ns, hr, rfl⟩ := hr
  cases ns with
  | nil =>
    refine ⟨h, ⟨0, ?_⟩, Q, [], hr, rfl⟩
    intro fuel _
    change exec fuel h q (.removeHead sp bufsize) = _
    rw [exec, remove_head_empty hr.here hr.queue (hr.head_null.mpr rfl)]
    rfl
  | cons n ns =>
    obtain ⟨hhead, nxt, he, hchain⟩ := chain_head hr.chain
    have hnn := hr.nonnull n (by simp)
    have hnull : Q.head ≠ NULL := hhead ▸ hnn.1
    have hn : h Q.head = some (.ele ⟨n.value, nxt⟩) := hhead.symm ▸ he
    refine ⟨_, ⟨n.str.bytes.length + 1, ?_⟩, _, _, hr.uncons hchain, rfl⟩
    intro fuel hfuel
    change exec fuel h q (.removeHead sp bufsize) = _
    rw [exec, remove_head_spec hr.here hr.queue hnull hn hnn.2 (hr.strings n (by simp)) hfuel, hhead]
    rfl

theorem reverse_simulates (hr : Refines h q l) : Simulates h q l .reverse := by
  obtain ⟨Q, ns, hr, rfl⟩ := hr
  rcases em (Q.head = NULL ∨ Q.size = 1) with hshort | hlong
  · have hrev : (ns.map Node.str).reverse = ns.map Node.str := by
      rcases hshort with hnull | hone
      · rw [hr.head_null.mp hnull]; rfl
      · have hlen := hr.size
        rw [hone] at hlen
        obtain ⟨n, rfl⟩ := List.length_eq_one_iff.mp hlen.symm
        rfl
    refine ⟨h, ⟨0, ?_⟩, Q, ns, hr, hrev.symm⟩
    intro fuel _
    change exec fuel h q .reverse = _
    rw [exec, q_reverse_trivial hr.here hr.queue hshort]
    rfl
  · rw [not_or] at hlong
    obtain ⟨n, rest, rfl⟩ := List.exists_cons_of_ne_nil (mt hr.head_null.mpr hlong.1)
    rcases List.eq_nil_or_concat' rest with rfl | ⟨rest, m, rfl⟩
    · exact absurd (BitVec.eq_of_toNat_eq hr.size) hlong.2
    · have hlast := hr.last m (by rw [← List.cons_append]; exact List.getLast?_concat)
      have hcells : (n :: (rest ++ [m])).map Node.cell =
          (n.addr, n.value) :: (rest.map Node.cell ++ [(Q.tail, m.value)]) := by
        rw [hlast]
        simp [Node.cell]
      have hchain := hr.chain
      have hnd := hr.addrs
      rw [← cell_fst, hcells] at hnd
      rw [hcells] at hchain
      obtain ⟨h', hQ, hrev, hframe, hrun⟩ :=
        q_reverse_spec hr.here hr.queue hlong.1 hlong.2 hchain hnd
      rw [← hcells] at hrev hframe
      refine ⟨h', ⟨rest.length + 1, ?_⟩, _, _, hr.reverse hQ hrev hframe, List.map_reverse⟩
      intro fuel hfuel
      change exec fuel h q .reverse = _
      rw [exec, hrun fuel (by rw [List.length_map]; exact hfuel)]
      rfl

theorem size_simulates (hr : Refines h q l) (hsafe : Safe h q .size) : Simulates h q l .size := by
  obtain ⟨Q, ns, hr, rfl⟩ := hr
  have hlt := hsafe Q hr.queue
  refine ⟨h, ⟨0, ?_⟩, Q, ns, hr, rfl⟩
  intro fuel _
  change exec fuel h q .size = _
  have hint : (Q.size.setWidth 32).toInt = (ns.length : ℤ) := by
    rw [← hr.size, BitVec.toInt_eq_toNat_cond, BitVec.toNat_setWidth]
    omega
  rw [exec, q_size, if_neg hr.here, getQueue_of hr.queue, ok_bind, hint, listStep, List.length_map]
  rfl

/-- With a stale tail the insertion leaves `tail` off the last element. -/
theorem insertHead_breaks {s : CString} {node val : Ptr} (hr : Refines h q l)
    (hsim : Simulates h q l (.insertHead s node val)) : Safe h q (.insertHead s node val) := by
  obtain ⟨Q, ns, hr, rfl⟩ := hr
  intro Q' ha hQ' hnull
  obtain rfl : Q = Q' := by
    have := hr.queue.symm.trans hQ'
    cases this
    rfl
  obtain rfl := hr.head_null.mp hnull
  obtain ⟨h', hrun, hQ, -, -, -⟩ := insert_head_spec s hr.here hr.queue ha
  obtain ⟨h'', hconv, Q'', ns, hr', hns⟩ := hsim
  have hexec : Converges (fun fuel => exec fuel h q (.insertHead s node val)) (h', .bool true) := by
    refine ⟨0, ?_⟩
    intro fuel _
    change exec fuel h q (.insertHead s node val) = _
    rw [exec, hrun]
    rfl
  obtain rfl := (Prod.mk.inj (hexec.unique hconv)).1
  have hone : ns.map Node.str = [s] := by simpa [listStep, answered, ha] using hns
  obtain ⟨n, rfl⟩ : ∃ n, ns = [n] := List.length_eq_one_iff.mp (by simpa using congrArg List.length hone)
  have hstruct := hr'.queue.symm.trans hQ
  obtain rfl : Q'' = _ := Block.queue.inj (Option.some.inj hstruct)
  have hhead : node = n.addr := (chain_head hr'.chain).1
  have hlast : (if Q.tail = NULL then node else Q.tail) = n.addr := hr'.last n rfl
  rcases eq_or_ne Q.tail NULL with ht | ht
  · exact Or.inl ht
  · rw [if_neg ht] at hlast
    exact Or.inr (hlast.trans hhead.symm)

/-- From `2^31` elements on the `int` is not the length. -/
theorem size_breaks (hr : Refines h q l) (hsim : Simulates h q l .size) : Safe h q .size := by
  obtain ⟨Q, ns, hr, rfl⟩ := hr
  intro Q' hQ'
  obtain rfl : Q = Q' := Block.queue.inj (Option.some.inj (hr.queue.symm.trans hQ'))
  obtain ⟨h', hconv, -⟩ := hsim
  have hexec : Converges (fun fuel => exec fuel h q .size) (h, .int (Q.size.setWidth 32).toInt) := by
    refine ⟨0, ?_⟩
    intro fuel _
    change exec fuel h q .size = _
    rw [exec, q_size, if_neg hr.here, getQueue_of hr.queue]
    rfl
  have hret := Ret.int.inj (Prod.mk.inj (hexec.unique hconv)).2
  have hlt := BitVec.toInt_lt (x := Q.size.setWidth 32)
  rw [hret, List.length_map, ← hr.size] at hlt
  omega

/-- A call on a queue that represents a list simulates the list iff it is safe. -/
theorem simulates_iff_safe (hr : Refines h q l) (op : Op) : Simulates h q l op ↔ Safe h q op := by
  cases op with
  | insertHead s node val => exact ⟨insertHead_breaks hr, insertHead_simulates hr⟩
  | insertTail s node val => exact ⟨fun _ => trivial, fun _ => insertTail_simulates s node val hr⟩
  | removeHead sp bufsize => exact ⟨fun _ => trivial, fun _ => removeHead_simulates sp bufsize hr⟩
  | reverse => exact ⟨fun _ => trivial, fun _ => reverse_simulates hr⟩
  | size => exact ⟨size_breaks hr, size_simulates hr⟩

end Calls

/-! ### Runs -/

/-- The memory, and the list the queue should stand for. -/
structure State where
  mem : Mem
  strings : List CString

/-- Calls on the queue that `q_new` made at `q`, next to the same calls on a list. -/
def queues (q : Ptr) : System State Op where
  init s := s.strings = [] ∧ ∃ h, q ≠ NULL ∧ q_new h q = (s.mem, q)
  step s op s' := (∃ r, Converges (fun fuel => exec fuel s.mem q op) (s'.mem, r)) ∧
    s'.strings = (listStep s.strings (answered s.mem op) op).1

theorem refines_new {h h' : Mem} {q : Ptr} (hq : q ≠ NULL) (hnew : q_new h q = (h', q)) :
    Refines h' q [] := by
  rw [q_new, malloc] at hnew
  split at hnew
  · exact absurd (Prod.mk.inj hnew).2.symm hq
  · obtain rfl := (Prod.mk.inj hnew).1
    exact ⟨_, [], ⟨hq, Heap.put_self, rfl, by simp, by simp, by simp, by simp, rfl, by simp⟩, rfl⟩

/-- In every run of safe calls the queue represents the list, and the next call does what the list
    does, without a fault, iff it is safe too. -/
theorem queue_refines_list {q : Ptr} {s : State}
    (h : ((queues q).restrict fun s op => Safe s.mem q op).Reachable s) :
    Refines s.mem q s.strings ∧ ∀ op, Simulates s.mem q s.strings op ↔ Safe s.mem q op := by
  have hr : Refines s.mem q s.strings := by
    refine System.reachable_of_step (P := fun s => Refines s.mem q s.strings) ?_ ?_ h
    · rintro s ⟨hnil, h, hq, hnew⟩
      rw [hnil]
      exact refines_new hq hnew
    · rintro s op s' hr ⟨hsafe, ⟨r, hconv⟩, hlist⟩
      obtain ⟨h', hsim, hr'⟩ := (simulates_iff_safe hr op).mpr hsafe
      obtain ⟨hmem, -⟩ := Prod.mk.inj (hconv.unique hsim)
      rw [hlist, hmem]
      exact hr'
  exact ⟨hr, simulates_iff_safe hr⟩

/-- A new queue at 16 on an empty heap. -/
def fresh : Mem := (q_new (fun _ => none) 16).1

/-- The memory after a call that needs no fuel. -/
def after (h : Mem) (op : Op) : Mem :=
  match exec 0 h 16 op with
  | .ok (h, _) => h
  | .error _ => h

def strA : CString := ⟨[97], by decide⟩

/-- An insertion at the head of a fresh queue is safe, and an insertion at the tail after it. -/
theorem queue_refines_list_fresh : ∃ s : State, Refines s.mem 16 [strA] ∧
    Simulates s.mem 16 [strA] (.insertTail strA 64 80) := by
  have hrun : ((queues 16).restrict fun s op => Safe s.mem 16 op).Reachable
      ⟨after fresh (.insertHead strA 32 48), [strA]⟩ := by
    refine ⟨⟨fresh, []⟩, [.insertHead strA 32 48], ⟨rfl, fun _ => none, by decide, rfl⟩,
      .single ⟨?_, ⟨.bool true, 0, fun fuel _ => rfl⟩, rfl⟩⟩
    intro Q _ hQ _
    obtain rfl : _ = Q := Block.queue.inj (Option.some.inj hQ)
    exact Or.inl rfl
  obtain ⟨hr, hsim⟩ := queue_refines_list hrun
  exact ⟨_, hr, (hsim (.insertTail strA 64 80)).mpr trivial⟩

/-- Insert, remove and insert at the head: the tail points to the freed element, and the next
    insertion at the tail writes through it. -/
theorem stale_tail : ∃ s : State, (queues 16).Reachable s ∧ ¬ Refines s.mem 16 s.strings ∧
    ∀ fuel, exec fuel s.mem 16 (.insertTail strA 96 112) = .error .fault := by
  have hfirst : (queues 16).step ⟨fresh, []⟩ (.insertHead strA 32 48)
      ⟨after fresh (.insertHead strA 32 48), [strA]⟩ :=
    ⟨⟨.bool true, 0, fun fuel _ => rfl⟩, rfl⟩
  have hsecond : (queues 16).step ⟨after fresh (.insertHead strA 32 48), [strA]⟩
      (.removeHead none 0)
      ⟨after (after fresh (.insertHead strA 32 48)) (.removeHead none 0), []⟩ :=
    ⟨⟨.removed true none, 0, fun fuel _ => rfl⟩, rfl⟩
  have hrun : (queues 16).Reachable
      ⟨after (after (after fresh (.insertHead strA 32 48)) (.removeHead none 0))
        (.insertHead strA 64 80), [strA]⟩ :=
    ⟨⟨fresh, []⟩, [.insertHead strA 32 48, .removeHead none 0, .insertHead strA 64 80],
      ⟨rfl, fun _ => none, by decide, rfl⟩,
      .cons hfirst <| .cons hsecond <| .single ⟨⟨.bool true, 0, fun fuel _ => rfl⟩, rfl⟩⟩
  refine ⟨_, hrun, ?_, fun fuel => rfl⟩
  rintro ⟨Q, ns, hr, hns⟩
  obtain ⟨n, rfl⟩ : ∃ n, ns = [n] :=
    List.length_eq_one_iff.mp (by simpa using congrArg List.length hns)
  obtain rfl : _ = Q := Block.queue.inj (Option.some.inj hr.queue)
  have hhead : (64 : Ptr) = n.addr := (chain_head hr.chain).1
  have htail : (32 : Ptr) = n.addr := hr.last n rfl
  rw [← hhead] at htail
  revert htail
  decide

end Labs.Queue
