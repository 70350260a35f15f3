import SystemsLabs.Cprogramming.QueueRefine

/-! @lab cprogramming | file:queue.c | structure:consistent queue | main result:reversal in place

    A consistent queue is a chain of elements from `head` to `NULL`, counted by `size`, with `tail` at
    its last element; nothing is asked of `tail` when there is none. The reversal splices the front
    element in behind the old tail until the old tail is in front. What it leaves is the same elements
    with the same string pointers, linked the other way, and no other block is touched, so a second
    reversal gives back the very same memory. -/

namespace Labs.Queue
open Schemes

/-- The queue at `q` is `Q`, over the elements `cells`: address and string pointer of each. -/
structure Consistent (h : Mem) (q : Ptr) (Q : QueueT) (cells : List (Ptr × Ptr)) : Prop where
  here : q ≠ NULL
  queue : h q = some (.queue Q)
  chain : Seg eleView h Q.head cells NULL
  nonnull : NULL ∉ cells.map Prod.fst
  size : Q.size.toNat = cells.length
  last : ∀ c, cells.getLast? = some c → Q.tail = c.1

/-- A queue that stands for a list of strings is consistent. -/
theorem Rep.consistent {h : Mem} {q : Ptr} {Q : QueueT} {ns : List Node} (hr : Rep h q Q ns) :
    Consistent h q Q (ns.map Node.cell) := by
  refine ⟨hr.here, hr.queue, hr.chain, ?_, by rw [List.length_map]; exact hr.size, ?_⟩
  · rw [cell_fst]
    intro hmem
    obtain ⟨n, hn, hnull⟩ := List.mem_map.mp hmem
    exact (hr.nonnull n hn).1 hnull
  · intro c hc
    rw [List.getLast?_map, Option.map_eq_some_iff] at hc
    obtain ⟨n, hn, rfl⟩ := hc
    exact hr.last n hn

section Consistent
variable {h h' : Mem} {q : Ptr} {Q : QueueT} {cells : List (Ptr × Ptr)}

theorem Consistent.nodup (hc : Consistent h q Q cells) : (cells.map Prod.fst).Nodup :=
  hc.chain.nodup hc.nonnull

theorem Consistent.empty_iff (hc : Consistent h q Q cells) : Q.head = NULL ↔ cells = [] := by
  cases cells with
  | nil => exact ⟨fun _ => rfl, fun _ => hc.chain⟩
  | cons c cells =>
    have hhead : Q.head = c.1 := hc.chain.1
    refine ⟨fun hnull => ?_, fun hnil => by cases hnil⟩
    exact absurd (by rw [← hnull, hhead]; simp) hc.nonnull

theorem eleView_inj (x y : Block) (c : Ptr × Ptr) (hx : eleView x = some c) (hy : eleView y = some c) :
    x = y :=
  (eleView_eq hx).trans (eleView_eq hy).symm

/-- Same struct, same elements, same blocks elsewhere: the same memory. -/
theorem Consistent.same (hc : Consistent h q Q cells) (hc' : Consistent h' q Q cells)
    (hframe : ∀ a, a ≠ q → a ∉ cells.map Prod.fst → h' a = h a) : h' = h := by
  funext a
  rcases eq_or_ne a q with rfl | haq
  · rw [hc.queue, hc'.queue]
  · rcases em (a ∈ cells.map Prod.fst) with hmem | hout
    · exact hc.chain.agree eleView_inj hc'.chain a hmem
    · exact hframe a haq hout

/-! ### Reversal -/

/-- The struct after a reversal: the ends change places. -/
def QueueT.swap (Q : QueueT) : QueueT := ⟨Q.tail, Q.head, Q.size⟩

/-- From `h` to `h'` the queue at `q` is reversed in place, `Q'` is its struct afterwards. -/
structure Reversed (h h' : Mem) (q : Ptr) (Q Q' : QueueT) (cells : List (Ptr × Ptr)) : Prop where
  consistent : Consistent h' q Q' cells.reverse
  ends : (cells = [] → Q.tail = NULL) → Q' = Q.swap
  /-- Without elements nothing happens, whatever `tail` is. -/
  empty : cells = [] → Q' = Q ∧ h' = h
  frame : ∀ a, a ≠ q → a ∉ cells.map Prod.fst → h' a = h a

theorem Consistent.tail_of_concat {c : Ptr × Ptr} (hc : Consistent h q Q (cells ++ [c])) :
    Q.tail = c.1 := hc.last c List.getLast?_concat

theorem Consistent.reversed_short (hc : Consistent h q Q cells)
    (hshort : Q.head = NULL ∨ Q.size = 1) : Reversed h h q Q Q cells := by
  rcases hshort with hnull | hone
  · obtain rfl := hc.empty_iff.mp hnull
    refine ⟨hc, fun htail => ?_, fun _ => ⟨rfl, rfl⟩, fun _ _ _ => rfl⟩
    obtain ⟨head, tail, size⟩ := Q
    obtain rfl : head = tail := hnull.trans (htail rfl).symm
    rfl
  · have hlen := hc.size
    rw [hone] at hlen
    obtain ⟨c, rfl⟩ := List.length_eq_one_iff.mp hlen.symm
    have hhead : Q.head = c.1 := hc.chain.1
    have htail : Q.tail = c.1 := hc.last c rfl
    refine ⟨hc, fun _ => ?_, (fun hnil => by cases hnil), fun _ _ _ => rfl⟩
    obtain ⟨head, tail, size⟩ := Q
    obtain rfl : head = tail := hhead.trans htail.symm
    rfl

theorem Consistent.reversed_long (hc : Consistent h q Q cells) (hnull : Q.head ≠ NULL)
    (hsize : Q.size ≠ 1) :
    ∃ h', (∀ fuel, cells.length < fuel → q_reverse fuel h q = .ok h') ∧
      Reversed h h' q Q Q.swap cells := by
  obtain ⟨c, rest, rfl⟩ := List.exists_cons_of_ne_nil (mt hc.empty_iff.mpr hnull)
  rcases List.eq_nil_or_concat' rest with rfl | ⟨mid, d, rfl⟩
  · exact absurd (BitVec.eq_of_toNat_eq hc.size) hsize
  · obtain ⟨a, v⟩ := c
    obtain ⟨b, w⟩ := d
    obtain rfl : Q.tail = b := by
      have hcells : (a, v) :: (mid ++ [(b, w)]) = ((a, v) :: mid) ++ [(b, w)] := rfl
      rw [hcells] at hc
      exact hc.tail_of_concat
    obtain rfl : Q.head = a := hc.chain.1
    obtain ⟨h', hQ, hrev, hframe, hrun⟩ :=
      q_reverse_spec hc.here hc.queue hnull hsize hc.chain hc.nodup
    refine ⟨h', fun fuel hfuel => hrun fuel ?_, ⟨hc.here, hQ, hrev, ?_, ?_, ?_⟩, fun _ => rfl,
      (fun hnil => by cases hnil), hframe⟩
    · simp only [List.length_cons, List.length_append] at hfuel
      omega
    · rw [List.map_reverse, List.mem_reverse]
      exact hc.nonnull
    · rw [List.length_reverse]
      exact hc.size
    · intro c hlast
      rw [List.getLast?_reverse] at hlast
      obtain rfl := Option.some.inj hlast
      rfl

/-- One call on any consistent queue. -/
theorem Consistent.q_reverse (hc : Consistent h q Q cells) :
    ∃ h' Q', Converges (fun fuel => q_reverse fuel h q) h' ∧ Reversed h h' q Q Q' cells := by
  rcases em (Q.head = NULL ∨ Q.size = 1) with hshort | hlong
  · exact ⟨h, Q, ⟨0, fun _ _ => q_reverse_trivial hc.here hc.queue hshort⟩,
      hc.reversed_short hshort⟩
  · rw [not_or] at hlong
    obtain ⟨h', hrun, hrev⟩ := hc.reversed_long hlong.1 hlong.2
    exact ⟨h', Q.swap, ⟨cells.length + 1, hrun⟩, hrev⟩

/-- Elements and struct stay allocated, and nothing else is or was. -/
theorem Reversed.live {Q' : QueueT} (hc : Consistent h q Q cells) (hr : Reversed h h' q Q Q' cells)
    (a : Ptr) : (h' a).isSome ↔ (h a).isSome := by
  rcases eq_or_ne a q with rfl | haq
  · rw [hc.queue, hr.consistent.queue]
    exact Iff.rfl
  · rcases em (a ∈ cells.map Prod.fst) with hmem | hout
    · obtain ⟨c, hcell, rfl⟩ := List.mem_map.mp hmem
      obtain ⟨n, hn⟩ := chain_live hc.chain c hcell
      obtain ⟨n', hn'⟩ := chain_live hr.consistent.chain c (List.mem_reverse.mpr hcell)
      rw [hn, hn']
      exact Iff.rfl
    · rw [hr.frame a haq hout]

/-- The old head is the last element, and its link is `NULL`. -/
theorem Consistent.tail_next (hc : Consistent h q Q cells) (hne : cells ≠ []) :
    ∃ v, h Q.tail = some (.ele ⟨v, NULL⟩) := by
  obtain ⟨front, ⟨a, v⟩, rfl⟩ := (List.eq_nil_or_concat' cells).resolve_left hne
  obtain ⟨m, -, hback⟩ := Seg.append.mp hc.chain
  obtain ⟨rfl, n, ha, hnull⟩ := chain_head hback
  obtain rfl : n = NULL := hnull
  rw [hc.tail_of_concat]
  exact ⟨v, ha⟩

/-- Twice reversed. -/
theorem Reversed.twice {h'' : Mem} {Q' Q'' : QueueT} (hc : Consistent h q Q cells)
    (hr : Reversed h h' q Q Q' cells) (hr' : Reversed h' h'' q Q' Q'' cells.reverse) : h'' = h := by
  rcases eq_or_ne cells [] with rfl | hne
  · rw [(hr'.empty rfl).2, (hr.empty rfl).2]
  · have hback : Q'' = Q := by
      rw [hr'.ends fun hnil => absurd hnil (List.reverse_ne_nil_iff.mpr hne),
        hr.ends fun hnil => absurd hnil hne]
      rfl
    have hc'' := hr'.consistent
    rw [List.reverse_reverse, hback] at hc''
    refine hc.same hc'' fun a haq hout => ?_
    rw [hr'.frame a haq (by rwa [List.map_reverse, List.mem_reverse]), hr.frame a haq hout]

/-- `q_reverse` on any consistent queue: it terminates, allocates and frees nothing, leaves a
    consistent queue over the same elements in reverse order with the ends exchanged, and run again
    it restores the memory it started from. -/
theorem q_reverse_in_place (hc : Consistent h q Q cells) :
    ∃ h' Q', Converges (fun fuel => Queue.q_reverse fuel h q) h' ∧
      Consistent h' q Q' cells.reverse ∧ Q'.size = Q.size ∧
      ((cells = [] → Q.tail = NULL) → Q'.head = Q.tail ∧ Q'.tail = Q.head) ∧
      (cells ≠ [] → ∃ v, h' Q'.tail = some (.ele ⟨v, NULL⟩)) ∧ (cells = [] → h' = h) ∧
      (∀ a, (h' a).isSome ↔ (h a).isSome) ∧ (∀ a, a ≠ q → a ∉ cells.map Prod.fst → h' a = h a) ∧
      Converges (fun fuel => Queue.q_reverse fuel h' q) h := by
  obtain ⟨h', Q', hrun, hr⟩ := hc.q_reverse
  obtain ⟨h'', Q'', hrun', hr'⟩ := hr.consistent.q_reverse
  obtain rfl := Reversed.twice hc hr hr'
  have hsize : Q'.size = Q.size := by
    apply BitVec.eq_of_toNat_eq
    rw [hr.consistent.size, hc.size, List.length_reverse]
  refine ⟨h', Q', hrun, hr.consistent, hsize, fun hends => ?_, fun hne => ?_,
    fun hnil => (hr.empty hnil).2, hr.live hc, hr.frame, hrun'⟩
  · rw [hr.ends hends]
    exact ⟨rfl, rfl⟩
  · exact hr.consistent.tail_next (List.reverse_ne_nil_iff.mpr hne)

end Consistent

/-- Three elements at 32, 48 and 64. -/
def three : Mem :=
  (((Heap.put (fun _ => none) 16 (.queue ⟨32, 64, 3⟩)).put 32 (.ele ⟨80, 48⟩)).put 48
    (.ele ⟨96, 64⟩)).put 64 (.ele ⟨112, NULL⟩)

theorem q_reverse_in_place_three : ∃ h' Q', Converges (fun fuel => q_reverse fuel three 16) h' ∧
    Consistent h' 16 Q' [(64, 112), (48, 96), (32, 80)] ∧ Q'.head = 64 ∧ Q'.tail = 32 ∧
    Converges (fun fuel => q_reverse fuel h' 16) three := by
  have hc : Consistent three 16 ⟨32, 64, 3⟩ [(32, 80), (48, 96), (64, 112)] := by
    refine ⟨by decide, rfl, ?_, by decide, rfl, ?_⟩
    · exact ⟨rfl, _, 48, rfl, rfl, rfl, _, 64, rfl, rfl, rfl, _, NULL, rfl, rfl, rfl⟩
    · intro c hlast
      obtain rfl := Option.some.inj hlast
      rfl
  obtain ⟨h', Q', hrun, hc', -, hends, -, -, -, -, hback⟩ := q_reverse_in_place hc
  obtain ⟨hhead, htail⟩ := hends fun hnil => by cases hnil
  exact ⟨h', Q', hrun, hc', hhead, htail, hback⟩

end Labs.Queue
