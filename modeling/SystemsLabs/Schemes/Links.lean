import SystemsLabs.Schemes.Heap

/-! @scheme links | structure:doubly linked list in a heap | used by:block lists

    A list is entered at its head and ends with `null` on both sides. A block is put in front of the
    head, or taken out by making its neighbours point past it; `Links` says where a block keeps its
    two links. Both operations need no search, and neither touches a block outside the list. -/

namespace Schemes

/-- How the links of a block are set. -/
structure Links {α β ε : Type} (view : β → α × ε × α) where
  setPrev : α → β → β
  setNext : α → β → β
  view_setPrev : ∀ m x, view (setPrev m x) = (m, (view x).2.1, (view x).2.2)
  view_setNext : ∀ n x, view (setNext n x) = ((view x).1, (view x).2.1, n)

variable {α β ε : Type} [DecidableEq α] {view : β → α × ε × α} {L : Links view} {h : Heap α β}
  {null head last prev p m n a : α} {x : β} {e : ε} {l l₁ l₂ : List (α × ε)}

/-- `bp->next = bn`, or the head if there is no `bp`. -/
def linkNext (L : Links view) (null : α) (h : Heap α β) (head bp bn : α) :
    Except Stop (Heap α β × α) :=
  if bp = null then .ok (h, bn)
  else do
    let x ← h.get bp
    .ok (h.put bp (L.setNext bn x), head)

/-- `bn->prev = bp`, if there is a `bn`. -/
def linkPrev (L : Links view) (null : α) (h : Heap α β) (bp bn : α) : Except Stop (Heap α β) :=
  if bn = null then .ok h
  else do
    let x ← h.get bn
    .ok (h.put bn (L.setPrev bp x))

/-- What is between `bp` and `bn` is left out: the heap and the head. -/
def bypass (L : Links view) (null : α) (h : Heap α β) (head bp bn : α) :
    Except Stop (Heap α β × α) := do
  let (h, head) ← linkNext L null h head bp bn
  let h ← linkPrev L null h bp bn
  .ok (h, head)

/-- A block in front of the head. -/
def pushFront (L : Links view) (null : α) (h : Heap α β) (head b : α) (x : β) :
    Except Stop (Heap α β) :=
  linkPrev L null (h.put b (L.setPrev null (L.setNext head x))) b head

/-! ### One link -/

omit [DecidableEq α] in
/-- The last block of a segment is the one it is left from. -/
theorem DSeg.last_eq (hs : DSeg view h prev p (l ++ [(a, e)]) last n) : last = a := by
  obtain ⟨q, b, _, rfl, y, r, _, _, rfl, _⟩ := DSeg.append.mp hs
  rfl

omit [DecidableEq α] in
theorem DSeg.get (hs : DSeg view h prev p l last n) (ha : a ∈ l.map Prod.fst) : ∃ x, h a = some x := by
  induction l generalizing prev p with
  | nil => cases ha
  | cons c l ih =>
    obtain ⟨b, e⟩ := c
    obtain ⟨rfl, x, q, hx, _, hs⟩ := hs
    rcases List.mem_cons.mp ha with rfl | ha
    · exact ⟨x, hx⟩
    · exact ih hs ha

/-- The link back from the first block. -/
theorem DSeg.setFirst (hs : DSeg view h prev p ((a, e) :: l) last n) (hx : h a = some x)
    (hout : a ∉ l.map Prod.fst) :
    DSeg view (h.put a (L.setPrev m x)) m p ((a, e) :: l) last n := by
  obtain ⟨rfl, y, q, hy, hv, hs⟩ := hs
  obtain rfl := Option.some.inj (hx.symm.trans hy)
  refine ⟨rfl, _, q, Heap.put_self, by rw [L.view_setPrev, hv], hs.congr fun b hb => ?_⟩
  exact Heap.put_of_ne fun hba => hout (hba ▸ hb)

/-- The link on from the last block. -/
theorem DSeg.setLast (hs : DSeg view h prev p (l ++ [(a, e)]) last m) (hx : h a = some x)
    (hout : a ∉ l.map Prod.fst) :
    DSeg view (h.put a (L.setNext n x)) prev p (l ++ [(a, e)]) last n := by
  obtain ⟨q, b, h₁, rfl, y, r, hy, hv, rfl, rfl⟩ := DSeg.append.mp hs
  obtain rfl := Option.some.inj (hx.symm.trans hy)
  refine DSeg.append.mpr ⟨q, b, h₁.congr fun c hc => Heap.put_of_ne fun hcb => hout (hcb ▸ hc), rfl, _, n,
    Heap.put_self, by rw [L.view_setNext, hv], rfl, rfl⟩

/-- A block changed between its links. -/
theorem DSeg.setPayload {e' : ε} {y : β} (hs : DSeg view h prev p (l₁ ++ (a, e) :: l₂) last n)
    (hnd : ((l₁ ++ (a, e) :: l₂).map Prod.fst).Nodup) (hx : h a = some x)
    (hy : view y = ((view x).1, e', (view x).2.2)) :
    DSeg view (h.put a y) prev p (l₁ ++ (a, e') :: l₂) last n := by
  obtain ⟨q, b, h₁, rfl, z, r, hz, hv, h₂⟩ := DSeg.append.mp hs
  obtain rfl := Option.some.inj (hx.symm.trans hz)
  rw [List.map_append, List.map_cons] at hnd
  obtain ⟨_, hnd₂, hcross⟩ := List.nodup_append.mp hnd
  refine DSeg.append.mpr ⟨q, b, h₁.congr fun c hc => Heap.put_of_ne ?_, rfl, y, r, Heap.put_self,
    by rw [hy, hv], h₂.congr fun c hc => Heap.put_of_ne ?_⟩
  · exact hcross c hc b List.mem_cons_self
  · rintro rfl
    exact (List.nodup_cons.mp hnd₂).1 hc

/-- Blocks outside `l` are as before, and no block comes or goes. -/
def Framed (h h' : Heap α β) (l : List (α × ε)) : Prop :=
  (∀ b, b ∉ l.map Prod.fst → h' b = h b) ∧ ∀ b, (h' b).isSome = (h b).isSome

omit [DecidableEq α] in
theorem Framed.refl (h : Heap α β) (l : List (α × ε)) : Framed h h l := ⟨fun _ _ => rfl, fun _ => rfl⟩

theorem framed_put {y : β} (hx : h a = some x) (ha : a ∈ l.map Prod.fst) : Framed h (h.put a y) l := by
  refine ⟨fun b hb => Heap.put_of_ne fun hba => hb (hba ▸ ha), fun b => ?_⟩
  by_cases hba : b = a
  · rw [hba, Heap.put_self, hx]
    rfl
  · rw [Heap.put_of_ne hba]

theorem linkNext_spec (hs : DSeg view h null head l m n) (hnd : (l.map Prod.fst).Nodup)
    (hnull : null ∉ l.map Prod.fst) (bn : α) :
    ∃ h' head', linkNext L null h head m bn = .ok (h', head') ∧ DSeg view h' null head' l m bn ∧
      Framed h h' l := by
  rcases List.eq_nil_or_concat l with rfl | ⟨l, ⟨a, e⟩, rfl⟩
  · obtain ⟨rfl, rfl⟩ := hs
    exact ⟨h, bn, by rw [linkNext, if_pos rfl], ⟨rfl, rfl⟩, Framed.refl h []⟩
  · rw [List.concat_eq_append] at hs hnd hnull ⊢
    obtain rfl := hs.last_eq
    have hmem : m ∈ (l ++ [(m, e)]).map Prod.fst := by simp
    obtain ⟨x, hx⟩ := hs.get hmem
    have hne : m ≠ null := fun hm => hnull (hm ▸ hmem)
    have hout : m ∉ l.map Prod.fst := by
      rw [List.map_append, List.nodup_append] at hnd
      exact fun hin => hnd.2.2 m hin m (by simp) rfl
    refine ⟨h.put m (L.setNext bn x), head, ?_, hs.setLast hx hout, framed_put hx hmem⟩
    rw [linkNext, if_neg hne, Heap.get_of_eq hx, ok_bind]

theorem linkPrev_spec (hs : DSeg view h a n l last null) (hnd : (l.map Prod.fst).Nodup)
    (hnull : null ∉ l.map Prod.fst) (bp : α) :
    ∃ h' last', linkPrev L null h bp n = .ok h' ∧ DSeg view h' bp n l last' null ∧ Framed h h' l := by
  cases l with
  | nil =>
    obtain ⟨rfl, rfl⟩ := hs
    exact ⟨h, bp, by rw [linkPrev, if_pos rfl], ⟨rfl, rfl⟩, Framed.refl h []⟩
  | cons c l =>
    obtain ⟨b, e⟩ := c
    have hn : n = b := hs.1
    have hmem : b ∈ ((b, e) :: l).map Prod.fst := by simp
    obtain ⟨x, hx⟩ := hs.get hmem
    have hne : b ≠ null := fun hb => hnull (hb ▸ hmem)
    refine ⟨h.put b (L.setPrev bp x), last, ?_, hs.setFirst hx (List.nodup_cons.mp hnd).1,
      framed_put hx hmem⟩
    rw [linkPrev, hn, if_neg hne, Heap.get_of_eq hx, ok_bind]

/-! ### Whole operations -/

theorem bypass_spec (hs : DSeg view h null head (l₁ ++ (a, e) :: l₂) last null)
    (hnd : ((l₁ ++ (a, e) :: l₂).map Prod.fst).Nodup)
    (hnull : null ∉ (l₁ ++ (a, e) :: l₂).map Prod.fst) :
    ∃ x bp bn h' head' last', h a = some x ∧ view x = (bp, e, bn) ∧
      bypass L null h head bp bn = .ok (h', head') ∧
      DSeg view h' null head' (l₁ ++ l₂) last' null ∧ Framed h h' (l₁ ++ l₂) := by
  obtain ⟨bp, b, h₁, rfl, x, bn, hx, hv, h₂⟩ := DSeg.append.mp hs
  rw [List.map_append, List.map_cons] at hnd hnull
  obtain ⟨hnd₁, hnd₂, hcross⟩ := List.nodup_append.mp hnd
  obtain ⟨hnull₁, hnull₂⟩ := not_or.mp (mt List.mem_append.mpr hnull)
  obtain ⟨h', head', hnext, hs₁, hf₁⟩ := @linkNext_spec _ _ _ _ _ L _ _ _ _ _ _ h₁ hnd₁ hnull₁ bn
  have hs₂ : DSeg view h' b bn l₂ last null := h₂.congr fun c hc =>
    hf₁.1 c fun hin => hcross c hin c (List.mem_cons_of_mem b hc) rfl
  obtain ⟨h'', last', hprev, hs₂', hf₂⟩ := @linkPrev_spec _ _ _ _ _ L _ _ _ _ _ _ hs₂
    (List.nodup_cons.mp hnd₂).2 (fun hin => hnull₂ (List.mem_cons_of_mem b hin)) bp
  refine ⟨x, bp, bn, h'', head', last', hx, hv, ?_, ?_, ?_, ?_⟩
  · rw [bypass, hnext, ok_bind]
    simp only [hprev]
    rfl
  · refine DSeg.append.mpr ⟨bp, bn, hs₁.congr fun c hc => hf₂.1 c fun hin => ?_, hs₂'⟩
    exact hcross c hc c (List.mem_cons_of_mem b hin) rfl
  · intro c hc
    rw [List.map_append, List.mem_append, not_or] at hc
    exact (hf₂.1 c hc.2).trans (hf₁.1 c hc.1)
  · exact fun c => (hf₂.2 c).trans (hf₁.2 c)

theorem pushFront_spec (hs : DSeg view h null head l last null) (hnd : (l.map Prod.fst).Nodup)
    (hnull : null ∉ l.map Prod.fst) (ha : h a = none) :
    ∃ h' last', pushFront L null h head a x = .ok h' ∧
      DSeg view h' null a ((a, (view x).2.1) :: l) last' null ∧
      ∀ b, (h' b).isSome = (b = a ∨ (h b).isSome) := by
  have hout : a ∉ l.map Prod.fst := fun hin => by
    obtain ⟨y, hy⟩ := hs.get hin
    rw [ha] at hy
    cases hy
  have hold : DSeg view (h.put a (L.setPrev null (L.setNext head x))) null head l last null :=
    hs.congr fun b hb => Heap.put_of_ne fun hba => hout (hba ▸ hb)
  obtain ⟨h', last', hrun, hs', hf⟩ := @linkPrev_spec _ _ _ _ _ L _ _ _ _ _ _ hold hnd hnull a
  refine ⟨h', last', hrun, ⟨rfl, _, head, (hf.1 a hout).trans Heap.put_self, ?_, hs'⟩, fun b => ?_⟩
  · rw [L.view_setPrev, L.view_setNext]
  · rw [hf.2 b]
    by_cases hba : b = a
    · simp [hba]
    · simp [hba, Heap.put_of_ne]

end Schemes
