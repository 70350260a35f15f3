import SystemsLabs.Cprogramming.QueueConsistent

/-! @lab cprogramming | file:queue.c | structure:consistent queue | main result:failed insertions

    The insertions with the string where the caller has it: in a block of its own, read character by
    character. They compute what the insertions of a given string compute, so the caller's block
    matters only during the call. An insertion fails when either request of memory does, and then
    the memory is the one before the call; otherwise the element and its string are the two new
    blocks, and the string stays whatever the caller writes to its buffer. -/

namespace Labs.Queue.Pointer
open Schemes

/-- `strlen`, from index `i` on. -/
def strlen (h : Mem) (s : Ptr) : ℕ → ℕ → Except Stop ℕ
  | 0, _ => .error .fuel
  | n + 1, i => do
    let c ← readChar h s i
    if c = 0 then return i else strlen h s n (i + 1)

/-- Copy `n` characters of `s` to `val`, from index `i` on. -/
def copyLoop (val s : Ptr) : ℕ → ℕ → Mem → Except Stop Mem
  | 0, _, h => .ok h
  | n + 1, i, h => do
    let c ← readChar h s i
    let h ← writeChar h val i c
    copyLoop val s n (i + 1) h

def newElement (fuel : ℕ) (h : Mem) (s node val : Ptr) : Except Stop (Mem × Option Ptr) :=
  let (h, newh) := malloc h node (.ele ⟨fillPtr, fillPtr⟩)
  if newh = NULL then .ok (h, none)
  else do
    let len ← strlen h s fuel 0
    let str := len + 1
    let (h, val) := malloc h val (.chars (List.replicate str FILLCHAR))
    if val = NULL then do
      let h ← free h newh
      return (h, none)
    else do
      let h ← copyLoop val s (str - 1) 0 h
      let h ← writeChar h val (str - 1) 0
      let h ← updEle h newh fun e => { e with value := val }
      return (h, some newh)

def q_insert_head (fuel : ℕ) (h : Mem) (q s node val : Ptr) : Except Stop (Mem × Bool) :=
  if q = NULL then .ok (h, false)
  else do
    let (h, newh) ← newElement fuel h s node val
    match newh with
    | none => return (h, false)
    | some newh => do
      let Q ← getQueue h q
      let h ← updEle h newh fun e => { e with next := Q.head }
      let h ← updQueue h q fun Q => { Q with head := newh, size := Q.size + 1 }
      let Q ← getQueue h q
      if Q.tail = NULL then do
        let h ← updQueue h q fun Q => { Q with tail := newh }
        return (h, true)
      else return (h, true)

def q_insert_tail (fuel : ℕ) (h : Mem) (q s node val : Ptr) : Except Stop (Mem × Bool) :=
  if q = NULL then .ok (h, false)
  else do
    let (h, ntail) ← newElement fuel h s node val
    match ntail with
    | none => return (h, false)
    | some ntail => do
      let h ← updEle h ntail fun e => { e with next := NULL }
      let h ← updQueue h q fun Q => { Q with size := Q.size + 1 }
      let Q ← getQueue h q
      if Q.size = 1 then do
        let h ← updQueue h q fun Q => { Q with tail := ntail, head := ntail }
        return (h, true)
      else do
        let h ← updEle h Q.tail fun e => { e with next := ntail }
        let h ← updQueue h q fun Q => { Q with tail := ntail }
        return (h, true)

/-! ### The caller's string -/

/-- The block at `s` begins with the string `str`. -/
def Holds (h : Mem) (s : Ptr) (str : CString) : Prop :=
  ∃ rest, h s = some (.chars (str.bytes ++ 0 :: rest))

section Read
variable {h h' : Mem} {s val node : Ptr} {str : CString} {rest : List UInt8}

theorem strlen_spec {todo : List UInt8} : ∀ {done : List UInt8} {n : ℕ}, 0 ∉ todo →
    h s = some (.chars (done ++ todo ++ 0 :: rest)) → todo.length < n →
    strlen h s n done.length = .ok (done ++ todo).length := by
  induction todo with
  | nil =>
    intro done n _ hs hn
    obtain ⟨n, rfl⟩ := Nat.exists_eq_succ_of_ne_zero (Nat.ne_of_gt hn)
    rw [List.append_nil] at hs ⊢
    rw [strlen, readChar_of hs (c := 0) (by simp), ok_bind, if_pos rfl]
    rfl
  | cons c todo ih =>
    intro done n hnul hs hn
    obtain ⟨n, rfl⟩ := Nat.exists_eq_succ_of_ne_zero (Nat.ne_of_gt (Nat.zero_lt_of_lt hn))
    rw [List.mem_cons, not_or] at hnul
    rw [strlen, readChar_of hs (c := c) (by simp), ok_bind, if_neg (Ne.symm hnul.1)]
    have hrec := @ih (done ++ [c]) n hnul.2 (by simpa using hs) (by simpa using hn)
    simpa using hrec

/-- The string is read where `val` is not written. -/
theorem copyLoop_eq {todo : List UInt8} (hne : s ≠ val) : ∀ {done : List UInt8} {h : Mem},
    h s = some (.chars (done ++ todo ++ 0 :: rest)) →
    copyLoop val s todo.length done.length h = copyIn h val done.length todo := by
  induction todo with
  | nil => intro done h _; rfl
  | cons c todo ih =>
    intro done h hs
    rw [List.length_cons, copyLoop, copyIn, readChar_of hs (c := c) (by simp), ok_bind]
    cases hw : writeChar h val done.length c with
    | error e => rfl
    | ok h₁ =>
      rw [ok_bind, ok_bind]
      have hs₁ : h₁ s = h s := by
        rw [writeChar] at hw
        split at hw
        · split at hw
          · obtain rfl := Except.ok.inj hw
            exact Heap.put_of_ne hne
          · cases hw
        · cases hw
      have hrec := @ih (done ++ [c]) h₁ (by rw [hs₁]; simpa using hs)
      simpa using hrec

theorem newElement_eq (hs : Holds h s str) {fuel : ℕ} (hfuel : str.bytes.length < fuel) :
    newElement fuel h s node val = Queue.newElement h str node val := by
  obtain ⟨rest, hs⟩ := hs
  rcases em (node ≠ NULL ∧ h node = none) with hnode | hnode
  · have hsn : s ≠ node := by rintro rfl; rw [hnode.2] at hs; cases hs
    rw [newElement, Queue.newElement, malloc_ok hnode.1 hnode.2]
    simp only
    rw [if_neg hnode.1, if_neg hnode.1]
    obtain ⟨h₁, hh₁⟩ : ∃ h₁, h₁ = h.put node (.ele ⟨fillPtr, fillPtr⟩) := ⟨_, rfl⟩
    have hs₁ : h₁ s = some (.chars (([] : List UInt8) ++ str.bytes ++ 0 :: rest)) := by
      rw [hh₁, Heap.put_of_ne hsn, hs]
      rfl
    have hlen : strlen h₁ s fuel 0 = .ok str.bytes.length := strlen_spec str.noNul hs₁ hfuel
    rw [← hh₁, hlen, ok_bind]
    rcases em (val ≠ NULL ∧ h₁ val = none) with hval | hval
    · have hsv : s ≠ val := by rintro rfl; rw [hval.2] at hs₁; cases hs₁
      rw [malloc_ok hval.1 hval.2]
      simp only
      rw [if_neg hval.1, if_neg hval.1, Nat.add_sub_cancel]
      have hcopy := copyLoop_eq hsv (h := h₁.put val
        (.chars (List.replicate (str.bytes.length + 1) FILLCHAR)))
        (by rw [Heap.put_of_ne hsv]; exact hs₁)
      rw [List.length_nil] at hcopy
      rw [hcopy]
    · rw [malloc_fail hval]
      simp only
      rw [if_pos trivial, if_pos trivial]
  · rw [newElement, Queue.newElement, malloc_fail hnode]
    simp only
    rw [if_pos trivial, if_pos trivial]

theorem q_insert_head_eq (hs : Holds h s str) (q node val : Ptr) :
    ∀ fuel, str.bytes.length + 1 ≤ fuel →
      q_insert_head fuel h q s node val = Queue.q_insert_head h q str node val := by
  intro fuel hfuel
  rw [q_insert_head, newElement_eq hs hfuel]
  rfl

theorem q_insert_tail_eq (hs : Holds h s str) (q node val : Ptr) :
    ∀ fuel, str.bytes.length + 1 ≤ fuel →
      q_insert_tail fuel h q s node val = Queue.q_insert_tail h q str node val := by
  intro fuel hfuel
  rw [q_insert_tail, newElement_eq hs hfuel]
  rfl

end Read

/-! ### All or nothing -/

/-- From `h` to `h'` exactly two blocks are new, an element at `node` and at `val` its own copy of
    the caller's string at `s`. -/
structure Inserted (h h' : Mem) (s node val : Ptr) (str : CString) : Prop where
  new : h node = none ∧ h val = none ∧ node ≠ val
  live : ∀ a, (h' a).isSome ↔ (h a).isSome ∨ a = node ∨ a = val
  node : ∃ nxt, h' node = some (.ele ⟨val, nxt⟩)
  /-- Whatever the caller makes of its buffer afterwards. -/
  copy : ∀ w : Mem, (∀ a, a ≠ s → w a = h' a) → w val = some (.chars (str.bytes ++ [0]))
  strings : ∀ a bytes, h a = some (.chars bytes) → h' a = some (.chars bytes)

section Atomic
variable {h h' : Mem} {q s val node nxt : Ptr} {Q : QueueT} {cells : List (Ptr × Ptr)} {str : CString}

/-- Outside the new blocks the insertions write to structs and elements only. -/
theorem Inserted.intro (ha : Answers h node val) (hs : Holds h s str)
    (hnode : h' node = some (.ele ⟨val, nxt⟩)) (hval : h' val = some (.chars (str.bytes ++ [0])))
    (hold : ∀ a, a ≠ node → a ≠ val → ((h' a).isSome ↔ (h a).isSome) ∧
      ∀ bytes, h a = some (.chars bytes) → h' a = some (.chars bytes)) :
    Inserted h h' s node val str := by
  obtain ⟨⟨-, hnfree⟩, ⟨-, hvfree⟩, hvn⟩ := ha
  obtain ⟨rest, hs⟩ := hs
  refine ⟨⟨hnfree, hvfree, hvn.symm⟩, fun a => ?_, ⟨nxt, hnode⟩, fun w hw => ?_, fun a bytes hb => ?_⟩
  · rcases eq_or_ne a node with rfl | han
    · simp [hnode]
    · rcases eq_or_ne a val with rfl | hav
      · simp [hval]
      · simp [(hold a han hav).1, han, hav]
  · rw [hw val (by rintro rfl; rw [hvfree] at hs; cases hs), hval]
  · refine (hold a ?_ ?_).2 bytes hb
    · rintro rfl
      rw [hnfree] at hb
      cases hb
    · rintro rfl
      rw [hvfree] at hb
      cases hb

theorem head_inserted (hc : Consistent h q Q cells) (hs : Holds h s str) (ha : Answers h node val) :
    ∃ h', Queue.q_insert_head h q str node val = .ok (h', true) ∧ Inserted h h' s node val str := by
  obtain ⟨h', hrun, hQ, hnode, hval, hframe⟩ := insert_head_spec str hc.here hc.queue ha
  refine ⟨h', hrun, .intro ha hs hnode hval fun a han hav => ?_⟩
  rcases eq_or_ne a q with rfl | haq
  · rw [hQ, hc.queue]
    simp
  · rw [hframe a haq han hav]
    exact ⟨Iff.rfl, fun _ hb => hb⟩

theorem tail_inserted (hc : Consistent h q Q cells) (hs : Holds h s str) (ha : Answers h node val) :
    ∃ h', Queue.q_insert_tail h q str node val = .ok (h', true) ∧ Inserted h h' s node val str := by
  rcases eq_or_ne cells [] with rfl | hne
  · have hsize : Q.size = 0 := BitVec.eq_of_toNat_eq hc.size
    obtain ⟨h', hrun, hQ, hnode, hval, hframe⟩ := insert_tail_empty str hc.here hc.queue hsize ha
    refine ⟨h', hrun, .intro ha hs hnode hval fun a han hav => ?_⟩
    rcases eq_or_ne a q with rfl | haq
    · rw [hQ, hc.queue]
      simp
    · rw [hframe a haq han hav]
      exact ⟨Iff.rfl, fun _ hb => hb⟩
  · have hsize : Q.size ≠ 0 := by
      intro h0
      have hlen := hc.size
      rw [h0] at hlen
      exact hne (List.eq_nil_of_length_eq_zero hlen.symm)
    obtain ⟨v, htail⟩ := hc.tail_next hne
    obtain ⟨h', hrun, hQ, hlast, hnode, hval, hframe⟩ :=
      insert_tail_nonempty str hc.here hc.queue hsize htail ha
    refine ⟨h', hrun, .intro ha hs hnode hval fun a han hav => ?_⟩
    rcases eq_or_ne a q with rfl | haq
    · rw [hQ, hc.queue]
      simp
    · rcases eq_or_ne a Q.tail with rfl | hat
      · rw [hlast, htail]
        simp
      · rw [hframe a haq hat han hav]
        exact ⟨Iff.rfl, fun _ hb => hb⟩

/-- Whichever request fails, an insertion into a consistent queue returns `false` and leaves the
    memory as it was; when none does, it returns `true` and adds the element and its string. -/
theorem q_insert_atomic (hc : Consistent h q Q cells) (hs : Holds h s str) :
    (¬ Answers h node val →
      Converges (fun fuel => q_insert_head fuel h q s node val) (h, false) ∧
      Converges (fun fuel => q_insert_tail fuel h q s node val) (h, false)) ∧
    (Answers h node val →
      (∃ h', Converges (fun fuel => q_insert_head fuel h q s node val) (h', true) ∧
        Inserted h h' s node val str) ∧
      ∃ h', Converges (fun fuel => q_insert_tail fuel h q s node val) (h', true) ∧
        Inserted h h' s node val str) := by
  have hhead := q_insert_head_eq hs q node val
  have htail := q_insert_tail_eq hs q node val
  refine ⟨fun hno => ⟨⟨str.bytes.length + 1, ?_⟩, ⟨str.bytes.length + 1, ?_⟩⟩, fun ha => ⟨?_, ?_⟩⟩
  · intro fuel hfuel
    exact (hhead fuel hfuel).trans (insert_head_fail str hno)
  · intro fuel hfuel
    exact (htail fuel hfuel).trans (insert_tail_fail str hno)
  · obtain ⟨h', hrun, hins⟩ := head_inserted hc hs ha
    exact ⟨h', ⟨_, fun fuel hfuel => (hhead fuel hfuel).trans hrun⟩, hins⟩
  · obtain ⟨h', hrun, hins⟩ := tail_inserted hc hs ha
    exact ⟨h', ⟨_, fun fuel hfuel => (htail fuel hfuel).trans hrun⟩, hins⟩

end Atomic

/-- An empty queue at 16, and the caller's buffer at 128. -/
def caller : Mem :=
  (Heap.put (fun _ => none) 16 (.queue ⟨NULL, NULL, 0⟩)).put 128 (.chars [97, 0, 98])

/-- The request for the string fails; then none does. -/
theorem q_insert_atomic_caller :
    Converges (fun fuel => q_insert_head fuel caller 16 128 32 NULL) (caller, false) ∧
    ∃ h', Converges (fun fuel => q_insert_tail fuel caller 16 128 32 48) (h', true) ∧
      Inserted caller h' 128 32 48 ⟨[97], by decide⟩ := by
  have hc : Consistent caller 16 ⟨NULL, NULL, 0⟩ [] :=
    ⟨by decide, rfl, rfl, by simp, rfl, by simp⟩
  have hs : Holds caller 128 ⟨[97], by decide⟩ := ⟨[98], rfl⟩
  exact ⟨((q_insert_atomic hc hs).1 (by decide)).1, ((q_insert_atomic hc hs).2 (by decide)).2⟩

end Labs.Queue.Pointer
