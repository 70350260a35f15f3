import SystemsLabs.Cprogramming.Queue
import Mathlib.Data.List.Nodup

/-! @lab cprogramming | file:queue.c | scheme:heap | main result:one spec lemma per function

    Each function of the queue, run on a heap that holds the blocks it needs: it terminates without
    a fault, and its lemma names every block that changed. A failed insertion gives its first block
    back and changes nothing. The reversal places the elements one by one behind the old tail; the
    loop invariant is that what hangs there is the reversal of what was taken from the front. -/

namespace Labs.Queue
open Schemes

section Access
variable {h : Mem} {p : Ptr} {q : QueueT} {e : ListEle} {bytes : List UInt8} {x : Block}

theorem getQueue_of (hp : h p = some (.queue q)) : getQueue h p = .ok q := by simp [getQueue, hp]

theorem getEle_of (hp : h p = some (.ele e)) : getEle h p = .ok e := by simp [getEle, hp]

theorem updQueue_of (hp : h p = some (.queue q)) (f : QueueT → QueueT) :
    updQueue h p f = .ok (h.put p (.queue (f q))) := by
  rw [updQueue, getQueue_of hp]; rfl

theorem updEle_of (hp : h p = some (.ele e)) (f : ListEle → ListEle) :
    updEle h p f = .ok (h.put p (.ele (f e))) := by
  rw [updEle, getEle_of hp]; rfl

theorem readChar_of {i : ℕ} {c : UInt8} (hp : h p = some (.chars bytes)) (hc : bytes[i]? = some c) :
    readChar h p i = .ok c := by
  simp [readChar, hp, hc]

theorem writeChar_of {i : ℕ} (hp : h p = some (.chars bytes)) (hi : i < bytes.length) (c : UInt8) :
    writeChar h p i c = .ok (h.put p (.chars (bytes.set i c))) := by
  simp [writeChar, hp, hi]

theorem free_of (hp : h p = some x) (hne : p ≠ NULL) : free h p = .ok (h.del p) := by
  simp [free, hp, hne]

theorem malloc_ok (hne : p ≠ NULL) (hfree : h p = none) : malloc h p x = (h.put p x, p) := by
  simp [malloc, hne, hfree]

theorem malloc_fail (hbad : ¬ (p ≠ NULL ∧ h p = none)) : malloc h p x = (h, NULL) := by
  rw [malloc, if_pos]
  rcases eq_or_ne p NULL with rfl | hne
  · exact Or.inl rfl
  · exact Or.inr (Option.isSome_iff_ne_none.mpr fun hfree => hbad ⟨hne, hfree⟩)

end Access

/-! ### A new element -/

/-- The allocator finds both blocks of a new element. -/
def Answers (h : Mem) (node val : Ptr) : Prop :=
  (node ≠ NULL ∧ h node = none) ∧ (val ≠ NULL ∧ h val = none) ∧ val ≠ node

instance (h : Mem) (node val : Ptr) : Decidable (Answers h node val) :=
  inferInstanceAs (Decidable (_ ∧ _))

theorem copyIn_spec {h : Mem} {val : Ptr} : ∀ {s done rest : List UInt8},
    h val = some (.chars (done ++ rest)) → s.length ≤ rest.length →
    ∃ h', copyIn h val done.length s = .ok h' ∧
      h' val = some (.chars (done ++ s ++ rest.drop s.length)) ∧ ∀ a, a ≠ val → h' a = h a
  | [], done, rest, hval, _ => ⟨h, rfl, by simpa using hval, fun _ _ => rfl⟩
  | c :: s, done, [], _, hlen => absurd hlen (by simp)
  | c :: s, done, x :: rest, hval, hlen => by
      have hset : (done ++ x :: rest).set done.length c = (done ++ [c]) ++ rest := by
        rw [List.set_append_right _ _ (Nat.le_refl _), Nat.sub_self, List.set_cons_zero,
          List.append_assoc, List.singleton_append]
      have hw := writeChar_of hval (i := done.length) (by simp) c
      rw [hset] at hw
      have hval' : (h.put val (.chars ((done ++ [c]) ++ rest))) val = some _ := Heap.put_self
      obtain ⟨h', hrun, hchars, hframe⟩ := copyIn_spec (s := s) hval' (by simpa using hlen)
      refine ⟨h', ?_, by simpa using hchars, fun a ha => ?_⟩
      · rw [copyIn, hw, ok_bind]
        simpa using hrun
      · rw [hframe a ha, Heap.put_of_ne ha]

theorem newElement_fail {h : Mem} {s : CString} {node val : Ptr} (hno : ¬ Answers h node val) :
    newElement h s node val = .ok (h, none) := by
  rcases em (node ≠ NULL ∧ h node = none) with hnode | hnode
  · have hval : ¬ (val ≠ NULL ∧ (h.put node (.ele ⟨fillPtr, fillPtr⟩)) val = none) := by
      rintro ⟨hne, hfree⟩
      rcases eq_or_ne val node with rfl | hvn
      · simp at hfree
      · rw [Heap.put_of_ne hvn] at hfree
        exact hno ⟨hnode, ⟨hne, hfree⟩, hvn⟩
    rw [newElement, malloc_ok hnode.1 hnode.2]
    simp only
    rw [if_neg hnode.1, malloc_fail hval]
    simp only
    rw [if_pos trivial, free_of Heap.put_self hnode.1, ok_bind]
    have hback : (h.put node (.ele ⟨fillPtr, fillPtr⟩)).del node = h := by
      funext a
      rcases eq_or_ne a node with rfl | hne
      · rw [Heap.del_self, hnode.2]
      · rw [Heap.del_of_ne hne, Heap.put_of_ne hne]
    rw [hback]
    rfl
  · rw [newElement, malloc_fail hnode]
    simp only
    rw [if_pos trivial]

theorem newElement_spec {h : Mem} {node val : Ptr} (s : CString) (ha : Answers h node val) :
    ∃ h', newElement h s node val = .ok (h', some node) ∧
      h' node = some (.ele ⟨val, fillPtr⟩) ∧ h' val = some (.chars (s.bytes ++ [0])) ∧
      ∀ a, a ≠ node → a ≠ val → h' a = h a := by
  obtain ⟨⟨hn, hfree⟩, ⟨hv, hvfree⟩, hvn⟩ := ha
  have hvfree' : (h.put node (.ele ⟨fillPtr, fillPtr⟩)) val = none := by
    rw [Heap.put_of_ne hvn, hvfree]
  have hfill : (h.put node (.ele ⟨fillPtr, fillPtr⟩)).put val
      (.chars (List.replicate (s.bytes.length + 1) FILLCHAR)) val =
      some (.chars ([] ++ List.replicate (s.bytes.length + 1) FILLCHAR)) := Heap.put_self
  obtain ⟨h₁, hcopy, hchars, hframe⟩ := copyIn_spec hfill (s := s.bytes) (by simp)
  rw [List.drop_replicate, Nat.add_sub_cancel_left, List.nil_append] at hchars
  have hend := writeChar_of hchars (i := s.bytes.length) (by simp) 0
  rw [List.set_append_right _ _ (Nat.le_refl _), Nat.sub_self, List.replicate_one,
    List.set_cons_zero] at hend
  have hnode : (h₁.put val (.chars (s.bytes ++ [0]))) node = some (.ele ⟨fillPtr, fillPtr⟩) := by
    rw [Heap.put_of_ne hvn.symm, hframe node hvn.symm, Heap.put_of_ne hvn.symm, Heap.put_self]
  refine ⟨(h₁.put val (.chars (s.bytes ++ [0]))).put node (.ele ⟨val, fillPtr⟩), ?_,
    Heap.put_self, ?_, fun a han hav => ?_⟩
  · rw [newElement, malloc_ok hn hfree]
    simp only
    rw [if_neg hn, malloc_ok hv hvfree']
    simp only
    rw [if_neg hv]
    change (copyIn _ val ([] : List UInt8).length s.bytes >>= _) = _
    rw [hcopy, ok_bind, Nat.add_sub_cancel, hend, ok_bind, updEle_of hnode, ok_bind]
    rfl
  · rw [Heap.put_of_ne hvn, Heap.put_self]
  · rw [Heap.put_of_ne han, Heap.put_of_ne hav, hframe a hav, Heap.put_of_ne hav,
      Heap.put_of_ne han]

/-! ### Insertion -/

section Insert
variable {h : Mem} {q node val : Ptr} {Q : QueueT} (s : CString)

theorem insert_head_spec (hq : q ≠ NULL) (hQ : h q = some (.queue Q)) (ha : Answers h node val) :
    ∃ h', q_insert_head h q s node val = .ok (h', true) ∧
      h' q = some (.queue ⟨node, if Q.tail = NULL then node else Q.tail, Q.size + 1⟩) ∧
      h' node = some (.ele ⟨val, Q.head⟩) ∧ h' val = some (.chars (s.bytes ++ [0])) ∧
      ∀ a, a ≠ q → a ≠ node → a ≠ val → h' a = h a := by
  obtain ⟨h₁, hnew, hnode, hval, hframe⟩ := newElement_spec s ha
  have hqn : q ≠ node := by rintro rfl; rw [ha.1.2] at hQ; cases hQ
  have hqv : q ≠ val := by rintro rfl; rw [ha.2.1.2] at hQ; cases hQ
  have hQ₁ : h₁ q = some (.queue Q) := by rw [hframe q hqn hqv, hQ]
  have hQ₂ : (h₁.put node (.ele ⟨val, Q.head⟩)) q = some (.queue Q) := by
    rw [Heap.put_of_ne hqn, hQ₁]
  have hother : ∀ {x : Block} {a : Ptr}, a ≠ q → a ≠ node → a ≠ val →
      ((h₁.put node (.ele ⟨val, Q.head⟩)).put q x) a = h a := by
    intro x a haq han hav
    rw [Heap.put_of_ne haq, Heap.put_of_ne han, hframe a han hav]
  have hnode₂ : ∀ {x : Block}, ((h₁.put node (.ele ⟨val, Q.head⟩)).put q x) node =
      some (.ele ⟨val, Q.head⟩) := by
    intro x
    rw [Heap.put_of_ne hqn.symm, Heap.put_self]
  have hval₂ : ∀ {x : Block}, ((h₁.put node (.ele ⟨val, Q.head⟩)).put q x) val =
      some (.chars (s.bytes ++ [0])) := by
    intro x
    rw [Heap.put_of_ne hqv.symm, Heap.put_of_ne ha.2.2, hval]
  have hstep : q_insert_head h q s node val =
      if Q.tail = NULL then
        .ok ((h₁.put node (.ele ⟨val, Q.head⟩)).put q (.queue ⟨node, node, Q.size + 1⟩), true)
      else
        .ok ((h₁.put node (.ele ⟨val, Q.head⟩)).put q (.queue ⟨node, Q.tail, Q.size + 1⟩), true) := by
    rw [q_insert_head, if_neg hq, hnew, ok_bind]
    simp only
    rw [getQueue_of hQ₁, ok_bind, updEle_of hnode, ok_bind, updQueue_of hQ₂, ok_bind,
      getQueue_of Heap.put_self, ok_bind]
    split
    · rw [updQueue_of Heap.put_self, ok_bind, Heap.put_put]
      rfl
    · rfl
  rw [hstep]
  split
  · exact ⟨_, rfl, Heap.put_self, hnode₂, hval₂, fun _ => hother⟩
  · exact ⟨_, rfl, Heap.put_self, hnode₂, hval₂, fun _ => hother⟩

theorem insert_head_fail (hno : ¬ Answers h node val) : q_insert_head h q s node val = .ok (h, false) := by
  rw [q_insert_head, newElement_fail hno]
  split
  · rfl
  · rfl

theorem insert_tail_fail (hno : ¬ Answers h node val) : q_insert_tail h q s node val = .ok (h, false) := by
  rw [q_insert_tail, newElement_fail hno]
  split
  · rfl
  · rfl

/-- Into a queue of size 0, whatever `tail` points to. -/
theorem insert_tail_empty (hq : q ≠ NULL) (hQ : h q = some (.queue Q)) (hsize : Q.size = 0)
    (ha : Answers h node val) :
    ∃ h', q_insert_tail h q s node val = .ok (h', true) ∧
      h' q = some (.queue ⟨node, node, Q.size + 1⟩) ∧
      h' node = some (.ele ⟨val, NULL⟩) ∧ h' val = some (.chars (s.bytes ++ [0])) ∧
      ∀ a, a ≠ q → a ≠ node → a ≠ val → h' a = h a := by
  obtain ⟨h₁, hnew, hnode, hval, hframe⟩ := newElement_spec s ha
  have hqn : q ≠ node := by rintro rfl; rw [ha.1.2] at hQ; cases hQ
  have hqv : q ≠ val := by rintro rfl; rw [ha.2.1.2] at hQ; cases hQ
  have hQ₂ : (h₁.put node (.ele ⟨val, NULL⟩)) q = some (.queue Q) := by
    rw [Heap.put_of_ne hqn, hframe q hqn hqv, hQ]
  refine ⟨(h₁.put node (.ele ⟨val, NULL⟩)).put q (.queue ⟨node, node, Q.size + 1⟩), ?_,
    Heap.put_self, ?_, ?_, fun a haq han hav => ?_⟩
  · rw [q_insert_tail, if_neg hq, hnew, ok_bind]
    simp only
    rw [updEle_of hnode, ok_bind, updQueue_of hQ₂, ok_bind, getQueue_of Heap.put_self, ok_bind,
      if_pos (by rw [hsize]; rfl), updQueue_of Heap.put_self, ok_bind, Heap.put_put]
    rfl
  · rw [Heap.put_of_ne hqn.symm, Heap.put_self]
  · rw [Heap.put_of_ne hqv.symm, Heap.put_of_ne ha.2.2, hval]
  · rw [Heap.put_of_ne haq, Heap.put_of_ne han, hframe a han hav]

/-- Into a nonempty queue: behind the element `tail` points to. -/
theorem insert_tail_nonempty {e : ListEle} (hq : q ≠ NULL) (hQ : h q = some (.queue Q))
    (hsize : Q.size ≠ 0) (htail : h Q.tail = some (.ele e)) (ha : Answers h node val) :
    ∃ h', q_insert_tail h q s node val = .ok (h', true) ∧
      h' q = some (.queue ⟨Q.head, node, Q.size + 1⟩) ∧
      h' Q.tail = some (.ele ⟨e.value, node⟩) ∧
      h' node = some (.ele ⟨val, NULL⟩) ∧ h' val = some (.chars (s.bytes ++ [0])) ∧
      ∀ a, a ≠ q → a ≠ Q.tail → a ≠ node → a ≠ val → h' a = h a := by
  obtain ⟨h₁, hnew, hnode, hval, hframe⟩ := newElement_spec s ha
  have hqn : q ≠ node := by rintro rfl; rw [ha.1.2] at hQ; cases hQ
  have hqv : q ≠ val := by rintro rfl; rw [ha.2.1.2] at hQ; cases hQ
  have htn : Q.tail ≠ node := by intro heq; rw [heq, ha.1.2] at htail; cases htail
  have htv : Q.tail ≠ val := by intro heq; rw [heq, ha.2.1.2] at htail; cases htail
  have hqt : q ≠ Q.tail := by intro heq; rw [← heq, hQ] at htail; cases htail
  have hQ₂ : (h₁.put node (.ele ⟨val, NULL⟩)) q = some (.queue Q) := by
    rw [Heap.put_of_ne hqn, hframe q hqn hqv, hQ]
  have htail₂ : ((h₁.put node (.ele ⟨val, NULL⟩)).put q
      (.queue { Q with size := Q.size + 1 })) Q.tail = some (.ele e) := by
    rw [Heap.put_of_ne hqt.symm, Heap.put_of_ne htn, hframe _ htn htv, htail]
  have hone : Q.size + 1 ≠ 1 := by
    intro h1
    exact hsize (by bv_omega)
  have hQ₃ : (((h₁.put node (.ele ⟨val, NULL⟩)).put q (.queue { Q with size := Q.size + 1 })).put
      Q.tail (.ele ⟨e.value, node⟩)) q = some (.queue { Q with size := Q.size + 1 }) := by
    rw [Heap.put_of_ne hqt, Heap.put_self]
  refine ⟨(((h₁.put node (.ele ⟨val, NULL⟩)).put q (.queue { Q with size := Q.size + 1 })).put
      Q.tail (.ele ⟨e.value, node⟩)).put q (.queue ⟨Q.head, node, Q.size + 1⟩), ?_,
    Heap.put_self, ?_, ?_, ?_, fun a haq hat han hav => ?_⟩
  · rw [q_insert_tail, if_neg hq, hnew, ok_bind]
    simp only
    rw [updEle_of hnode, ok_bind, updQueue_of hQ₂, ok_bind, getQueue_of Heap.put_self, ok_bind,
      if_neg hone, updEle_of htail₂, ok_bind, updQueue_of hQ₃, ok_bind]
    rfl
  · rw [Heap.put_of_ne hqt.symm, Heap.put_self]
  · rw [Heap.put_of_ne hqn.symm, Heap.put_of_ne htn.symm, Heap.put_of_ne hqn.symm, Heap.put_self]
  · rw [Heap.put_of_ne hqv.symm, Heap.put_of_ne htv.symm, Heap.put_of_ne hqv.symm,
      Heap.put_of_ne ha.2.2, hval]
  · rw [Heap.put_of_ne haq, Heap.put_of_ne hat, Heap.put_of_ne haq, Heap.put_of_ne han,
      hframe a han hav]

end Insert

/-! ### Removal -/

/-- The buffer with `bytes` written at its start. -/
def overlay (sp : Buffer) (bytes : List UInt8) : Buffer := fun i => bytes.getD i (sp i)

theorem overlay_concat (sp : Buffer) (bytes : List UInt8) (c : UInt8) :
    Function.update (overlay sp bytes) bytes.length c = overlay sp (bytes ++ [c]) := by
  funext i
  rcases Nat.lt_trichotomy i bytes.length with hlt | rfl | hgt
  · rw [Function.update_of_ne (Nat.ne_of_lt hlt)]
    simp [overlay, List.getElem?_append_left hlt]
  · simp [overlay]
  · rw [Function.update_of_ne (Nat.ne_of_gt hgt)]
    have h₁ : bytes[i]? = none := by simp; omega
    have h₂ : (bytes ++ [c])[i]? = none := by simp; omega
    simp [overlay, h₁, h₂]

theorem copyOut_spec {h : Mem} {str : Ptr} {s : List UInt8} {limit : ℕ} {sp : Buffer}
    (hstr : h str = some (.chars (s ++ [0]))) (hnul : 0 ∉ s) : ∀ {rest done : List UInt8} {n : ℕ},
    s = done ++ rest → done.length ≤ limit → rest.length < n →
    copyOut h str limit n done.length (overlay sp done) = .ok (overlay sp (s.take limit ++ [0]))
  | _, _, 0, _, _, hn => absurd hn (Nat.not_lt_zero _)
  | [], done, n + 1, hs, hle, _ => by
      rw [List.append_nil] at hs
      subst hs
      rw [List.take_of_length_le hle, copyOut]
      split
      · rw [readChar_of hstr (c := 0) (by simp), ok_bind, if_neg (by simp), overlay_concat]
        rfl
      · rw [overlay_concat]; rfl
  | c :: rest, done, n + 1, hs, hle, hn => by
      rw [copyOut]
      split
      · rename_i hlt
        have hc : c ≠ 0 := by
          rintro rfl
          exact hnul (by simp [hs])
        have hs' : s = (done ++ [c]) ++ rest := by simp [hs]
        rw [readChar_of hstr (c := c) (by simp [hs]), ok_bind, if_pos hc, overlay_concat]
        have hrec := @copyOut_spec h str s limit sp hstr hnul rest (done ++ [c]) n hs'
          (by rw [List.length_append]; exact hlt) (by simpa using hn)
        simpa using hrec
      · rename_i hge
        have hlim : done.length = limit := by omega
        rw [overlay_concat, ← hlim, hs, List.take_left']
        · rfl
        · rfl

section Remove
variable {h : Mem} {q v n : Ptr} {Q : QueueT} {s : CString} {fuel : ℕ}

/-- What the caller finds in the buffer. -/
def copied (s : CString) (bufsize : BitVec 64) (sp : Option Buffer) : Option Buffer :=
  sp.map fun sp => overlay sp (s.bytes.take (bufsize - 1).toNat ++ [0])

theorem remove_head_empty (hq : q ≠ NULL) (hQ : h q = some (.queue Q)) (hhead : Q.head = NULL)
    (sp : Option Buffer) (bufsize : BitVec 64) :
    q_remove_head fuel h q sp bufsize = .ok (h, false, sp) := by
  rw [q_remove_head, if_neg hq, getQueue_of hQ, ok_bind, if_pos hhead]
  rfl

theorem remove_head_spec (hq : q ≠ NULL) (hQ : h q = some (.queue Q)) (hhead : Q.head ≠ NULL)
    (he : h Q.head = some (.ele ⟨v, n⟩)) (hv : v ≠ NULL)
    (hs : h v = some (.chars (s.bytes ++ [0]))) (hfuel : s.bytes.length < fuel)
    (sp : Option Buffer) (bufsize : BitVec 64) :
    q_remove_head fuel h q sp bufsize =
      .ok (((h.put q (.queue ⟨n, Q.tail, Q.size - 1⟩)).del v).del Q.head, true,
        copied s bufsize sp) := by
  have hqv : q ≠ v := by rintro rfl; rw [hQ] at hs; cases hs
  have hqh : q ≠ Q.head := by intro heq; rw [← heq, hQ] at he; cases he
  have hvh : v ≠ Q.head := by intro heq; rw [heq, he] at hs; cases hs
  have hs₁ : (h.put q (.queue ⟨n, Q.tail, Q.size - 1⟩)) v = some (.chars (s.bytes ++ [0])) := by
    rw [Heap.put_of_ne hqv.symm, hs]
  have he₁ : (h.put q (.queue ⟨n, Q.tail, Q.size - 1⟩)) Q.head = some (.ele ⟨v, n⟩) := by
    rw [Heap.put_of_ne hqh.symm, he]
  have he₂ : ((h.put q (.queue ⟨n, Q.tail, Q.size - 1⟩)).del v) Q.head = some (.ele ⟨v, n⟩) := by
    rw [Heap.del_of_ne hvh.symm, he₁]
  rw [q_remove_head, if_neg hq, getQueue_of hQ, ok_bind, if_neg hhead]
  simp only
  rw [getEle_of he, ok_bind, updQueue_of hQ, ok_bind]
  cases sp with
  | none =>
    simp only
    rw [pure_bind, getEle_of he₁, ok_bind, free_of hs₁ hv, ok_bind, free_of he₂ hhead, ok_bind]
    rfl
  | some sp =>
    have hcopy := @copyOut_spec _ v s.bytes (bufsize - 1).toNat sp hs₁ s.noNul s.bytes [] fuel rfl
      (Nat.zero_le _) hfuel
    have hstart : overlay sp [] = sp := by funext i; simp [overlay]
    rw [hstart, List.length_nil] at hcopy
    simp only
    rw [hcopy, ok_bind, pure_bind, getEle_of he₁, ok_bind, free_of hs₁ hv, ok_bind,
      free_of he₂ hhead, ok_bind]
    rfl

end Remove

/-! ### Reversal -/

/-- An element's string pointer and link. -/
def eleView : Block → Option (Ptr × Ptr)
  | .ele e => some (e.value, e.next)
  | _ => none

theorem eleView_eq {x : Block} {v n : Ptr} (hx : eleView x = some (v, n)) : x = .ele ⟨v, n⟩ := by
  cases x with
  | ele e =>
    obtain ⟨v', n'⟩ := e
    obtain ⟨rfl, rfl⟩ := Prod.mk.inj (Option.some.inj hx)
    rfl
  | queue Q => cases hx
  | chars bytes => cases hx

/-- The first element of a chain. -/
theorem chain_head {h : Mem} {p a v r : Ptr} {l : List (Ptr × Ptr)}
    (hs : Seg eleView h p ((a, v) :: l) r) :
    p = a ∧ ∃ n, h a = some (.ele ⟨v, n⟩) ∧ Seg eleView h n l r := by
  obtain ⟨rfl, x, n, hx, hv, hs⟩ := hs
  rw [eleView_eq hv] at hx
  exact ⟨rfl, n, hx, hs⟩

theorem chain_live {h : Mem} {p r : Ptr} : ∀ {l : List (Ptr × Ptr)}, Seg eleView h p l r →
    ∀ c ∈ l, ∃ n, h c.1 = some (.ele ⟨c.2, n⟩)
  | [], _, c, hc => by simp at hc
  | (b, v) :: l, hs, c, hc => by
      obtain ⟨-, n, hb, hs⟩ := chain_head hs
      rcases List.mem_cons.mp hc with rfl | hc
      · exact ⟨n, hb⟩
      · exact chain_live hs c hc

/-- The block at `q` is none of the elements. -/
theorem queue_not_mem {h : Mem} {q p r : Ptr} {Q : QueueT} {l : List (Ptr × Ptr)}
    (hQ : h q = some (.queue Q)) (hs : Seg eleView h p l r) : q ∉ l.map Prod.fst := by
  intro hm
  obtain ⟨c, hc, rfl⟩ := List.mem_map.mp hm
  obtain ⟨n, hn⟩ := chain_live hs c hc
  rw [hQ] at hn
  cases hn

/-- Invariant of the loop: behind `end_` hang the elements already placed, latest first. -/
theorem reverseLoop_spec {end_ ve : Ptr} : ∀ {rest done : List (Ptr × Ptr)} {h : Mem} {temp p : Ptr},
    Seg eleView h temp rest end_ → h end_ = some (.ele ⟨ve, p⟩) → Seg eleView h p done NULL →
    (end_ :: (rest ++ done).map Prod.fst).Nodup →
    ∃ h' p', h' end_ = some (.ele ⟨ve, p'⟩) ∧ Seg eleView h' p' (rest.reverse ++ done) NULL ∧
      (∀ a, a ∉ end_ :: rest.map Prod.fst → h' a = h a) ∧
      ∀ n, rest.length < n → reverseLoop end_ n h temp = .ok (h', end_)
  | [], done, h, temp, p, hs, hend, hdone, _ => by
      obtain rfl : temp = end_ := hs
      refine ⟨h, p, hend, hdone, fun _ _ => rfl, ?_⟩
      intro n hn
      obtain ⟨n, rfl⟩ := Nat.exists_eq_succ_of_ne_zero (Nat.ne_of_gt hn)
      rw [reverseLoop, if_pos rfl]
  | (a, v) :: rest, done, h, temp, p, hs, hend, hdone, hnd => by
      obtain ⟨rfl, nxt, ha, hs⟩ := chain_head hs
      rw [List.cons_append, List.map_cons, List.nodup_cons, List.nodup_cons, List.mem_cons, not_or]
        at hnd
      obtain ⟨⟨hea, hout⟩, hna, hnd⟩ := hnd
      have hout' : ∀ {b : Ptr}, b ∈ (rest ++ done).map Prod.fst → b ≠ end_ ∧ b ≠ temp := fun hb =>
        ⟨by rintro rfl; exact hout hb, by rintro rfl; exact hna hb⟩
      have ha₁ : (h.put end_ (.ele ⟨ve, temp⟩)) temp = some (.ele ⟨v, nxt⟩) := by
        rw [Heap.put_of_ne (Ne.symm hea), ha]
      have hsame : ∀ b ∈ (rest ++ done).map Prod.fst,
          ((h.put end_ (.ele ⟨ve, temp⟩)).put temp (.ele ⟨v, p⟩)) b = h b := fun b hb => by
        rw [Heap.put_of_ne (hout' hb).2, Heap.put_of_ne (hout' hb).1]
      have hrest : Seg eleView ((h.put end_ (.ele ⟨ve, temp⟩)).put temp (.ele ⟨v, p⟩)) nxt rest end_ :=
        hs.congr fun b hb => hsame b (by rw [List.map_append, List.mem_append]; exact Or.inl hb)
      have hplaced : Seg eleView ((h.put end_ (.ele ⟨ve, temp⟩)).put temp (.ele ⟨v, p⟩)) temp
          ((temp, v) :: done) NULL := by
        refine ⟨rfl, _, p, Heap.put_self, rfl, hdone.congr fun b hb => hsame b ?_⟩
        rw [List.map_append, List.mem_append]
        exact Or.inr hb
      have hend' : ((h.put end_ (.ele ⟨ve, temp⟩)).put temp (.ele ⟨v, p⟩)) end_ =
          some (.ele ⟨ve, temp⟩) := by
        rw [Heap.put_of_ne hea, Heap.put_self]
      have hnd' : (end_ :: (rest ++ (temp, v) :: done).map Prod.fst).Nodup := by
        rw [List.map_append, List.map_cons, List.nodup_cons, List.nodup_middle, ← List.map_append,
          List.nodup_cons]
        refine ⟨?_, hna, hnd⟩
        rw [List.mem_append, List.mem_cons]
        rintro (hm | hm | hm)
        · exact (hout' (by rw [List.map_append, List.mem_append]; exact Or.inl hm)).1 rfl
        · exact hea hm
        · exact (hout' (by rw [List.map_append, List.mem_append]; exact Or.inr hm)).1 rfl
      obtain ⟨h', p', hend'', hseg, hframe, hrun⟩ := reverseLoop_spec hrest hend' hplaced hnd'
      refine ⟨h', p', hend'', by simpa using hseg, ?_, ?_⟩
      · intro b hb
        rw [List.map_cons, List.mem_cons, List.mem_cons, not_or, not_or] at hb
        rw [hframe b (by rw [List.mem_cons, not_or]; exact ⟨hb.1, hb.2.2⟩), Heap.put_of_ne hb.2.1,
          Heap.put_of_ne hb.1]
      · intro n hn
        obtain ⟨n, rfl⟩ := Nat.exists_eq_succ_of_ne_zero (Nat.ne_of_gt (Nat.zero_lt_of_lt hn))
        rw [reverseLoop, if_neg (Ne.symm hea), getEle_of hend, ok_bind]
        simp only
        rw [updEle_of hend, ok_bind, getEle_of ha₁, ok_bind, updEle_of ha₁, ok_bind]
        exact hrun n (by simpa using hn)

theorem q_reverse_trivial {h : Mem} {q : Ptr} {Q : QueueT} {fuel : ℕ} (hq : q ≠ NULL)
    (hQ : h q = some (.queue Q)) (hshort : Q.head = NULL ∨ Q.size = 1) :
    q_reverse fuel h q = .ok h := by
  rw [q_reverse, if_neg hq, getQueue_of hQ, ok_bind, if_pos hshort]
  rfl

theorem q_reverse_spec {h : Mem} {q v₀ ve a₀ : Ptr} {Q : QueueT} {rest : List (Ptr × Ptr)}
    (hq : q ≠ NULL) (hQ : h q = some (.queue Q)) (hhead : Q.head ≠ NULL)
    (hsize : Q.size ≠ 1) (hchain : Seg eleView h Q.head ((a₀, v₀) :: (rest ++ [(Q.tail, ve)])) NULL)
    (hnd : (((a₀, v₀) :: (rest ++ [(Q.tail, ve)])).map Prod.fst).Nodup) :
    ∃ h', h' q = some (.queue ⟨Q.tail, Q.head, Q.size⟩) ∧
      Seg eleView h' Q.tail (((a₀, v₀) :: (rest ++ [(Q.tail, ve)])).reverse) NULL ∧
      (∀ a, a ≠ q → a ∉ ((a₀, v₀) :: (rest ++ [(Q.tail, ve)])).map Prod.fst → h' a = h a) ∧
      ∀ fuel, rest.length < fuel → q_reverse fuel h q = .ok h' := by
  obtain ⟨hd, tl, size⟩ := Q
  simp only at hhead hsize hchain hnd ⊢
  obtain ⟨rfl, n₁, ha, hs⟩ := chain_head hchain
  obtain ⟨m, hrest, hlast⟩ := Seg.append.mp hs
  obtain ⟨rfl, n₂, he, hnull⟩ := chain_head hlast
  obtain rfl : n₂ = NULL := hnull
  rw [List.map_cons, List.nodup_cons, List.map_append, List.map_singleton, List.mem_append,
    List.mem_singleton, not_or] at hnd
  obtain ⟨⟨har, hae⟩, hnd⟩ := hnd
  have her : m ∉ rest.map Prod.fst := fun hm =>
    List.disjoint_of_nodup_append hnd hm (List.mem_singleton_self m)
  have hout := queue_not_mem hQ hchain
  rw [List.map_cons, List.mem_cons, List.map_append, List.mem_append, List.map_singleton,
    List.mem_singleton, not_or, not_or] at hout
  obtain ⟨hqa : q ≠ hd, hqr, hqe : q ≠ m⟩ := hout
  have ha₁ : (h.put m (.ele ⟨ve, hd⟩)) hd = some (.ele ⟨v₀, n₁⟩) := by
    rw [Heap.put_of_ne hae, ha]
  have hQ₂ : ((h.put m (.ele ⟨ve, hd⟩)).put hd (.ele ⟨v₀, NULL⟩)) q =
      some (.queue ⟨hd, m, size⟩) := by
    rw [Heap.put_of_ne hqa, Heap.put_of_ne hqe, hQ]
  obtain ⟨h₃, hh₃⟩ : ∃ h₃, h₃ = ((h.put m (.ele ⟨ve, hd⟩)).put hd (.ele ⟨v₀, NULL⟩)).put q
    (.queue ⟨hd, hd, size⟩) := ⟨_, rfl⟩
  have hsame : ∀ {b : Ptr}, b ≠ q → b ≠ hd → b ≠ m → h₃ b = h b := by
    intro b hbq hba hbe
    rw [hh₃, Heap.put_of_ne hbq, Heap.put_of_ne hba, Heap.put_of_ne hbe]
  have hrest₃ : Seg eleView h₃ n₁ rest m := hrest.congr fun b hb => hsame
    (by rintro rfl; exact hqr hb) (by rintro rfl; exact har hb) (by rintro rfl; exact her hb)
  have he₃ : h₃ m = some (.ele ⟨ve, hd⟩) := by
    rw [hh₃, Heap.put_of_ne hqe.symm, Heap.put_of_ne (Ne.symm hae), Heap.put_self]
  have hfirst : Seg eleView h₃ hd [(hd, v₀)] NULL :=
    ⟨rfl, .ele ⟨v₀, NULL⟩, NULL, by rw [hh₃, Heap.put_of_ne hqa.symm, Heap.put_self], rfl, rfl⟩
  have hnd₃ : (m :: (rest ++ [(hd, v₀)]).map Prod.fst).Nodup := by
    rw [List.map_append, List.map_singleton, List.nodup_cons, List.mem_append,
      List.mem_singleton, not_or]
    refine ⟨⟨her, Ne.symm hae⟩, List.nodup_append.mpr ⟨hnd.of_append_left, by simp, ?_⟩⟩
    rintro x hx y hy rfl
    obtain rfl := List.mem_singleton.mp hy
    exact har hx
  obtain ⟨h₄, p', he₄, hseg, hframe, hrun⟩ := reverseLoop_spec hrest₃ he₃ hfirst hnd₃
  have hQ₄ : h₄ q = some (.queue ⟨hd, hd, size⟩) := by
    rw [hframe q (by rw [List.mem_cons, not_or]; exact ⟨hqe, hqr⟩), hh₃, Heap.put_self]
  refine ⟨h₄.put q (.queue ⟨m, hd, size⟩), Heap.put_self, ?_, ?_, ?_⟩
  · have hcells : ((hd, v₀) :: (rest ++ [(m, ve)])).reverse =
        (m, ve) :: (rest.reverse ++ [(hd, v₀)]) := by simp
    rw [hcells]
    refine ⟨rfl, .ele ⟨ve, p'⟩, p', by rw [Heap.put_of_ne hqe.symm, he₄], rfl,
      hseg.congr fun b hb => Heap.put_of_ne ?_⟩
    rintro rfl
    rw [List.map_append, List.mem_append, List.map_singleton, List.mem_singleton, List.map_reverse,
      List.mem_reverse] at hb
    exact hb.elim hqr hqa
  · intro b hbq hb
    rw [List.map_cons, List.mem_cons, List.map_append, List.mem_append, List.map_singleton,
      List.mem_singleton, not_or, not_or] at hb
    rw [Heap.put_of_ne hbq, hframe b (by rw [List.mem_cons, not_or]; exact ⟨hb.2.2, hb.2.1⟩),
      hsame hbq hb.1 hb.2.2]
  · intro fuel hfuel
    rw [q_reverse, if_neg hq, getQueue_of hQ, ok_bind, if_neg (not_or.mpr ⟨hhead, hsize⟩)]
    simp only
    rw [updEle_of he, ok_bind, getEle_of ha₁, ok_bind, updEle_of ha₁, ok_bind, updQueue_of hQ₂,
      ok_bind, ← hh₃, hrun fuel hfuel, ok_bind]
    simp only
    rw [updQueue_of hQ₄]

end Labs.Queue
