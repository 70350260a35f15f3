import SystemsLabs.Cprogramming.Harness

/-! @lab cprogramminglab | file:harness.c | structure:refinement of a ledger |
    main results:runs follow the ledger, unknown blocks are errors, what overruns are noticed

    The ledger is what harness.c is for: it lists the live blocks with what they hold, and notes an
    error when a spoiled block is freed, or when there is no memory and the process goes on. `Rep s L`
    says that the linked list of `s` is the ledger; each function has one spec lemma over it, and a run
    follows the ledger step by step. -/

namespace Labs.TestMalloc
open Schemes
variable {s s' : Harness} {l l₁ l₂ : List (ℕ × Entry)} {b p : ℕ} {e : Entry}

/-! ### The ledger -/

def Entry.spoiled (e : Entry) : Bool :=
  e.magic_header ≠ MAGICHEADER || (e.bytes.drop e.payload_size).take 4 ≠ magic_footer

/-- The live blocks, newest first, whether an error has been seen, and whether blocks are neither
    given out nor taken back at the moment. -/
structure Ledger where
  live : List (ℕ × Entry)
  err : Bool
  noallocate : Bool

inductive Op where
  | malloc (fails : Bool) (answer : ℕ) (junk : Buffer 4) (size : ℕ)
  | calloc (fails : Bool) (answer : ℕ) (junk : Buffer 4) (num size : ℕ)
  | free (p : ℕ)
  | poke (p off : ℕ) (c : UInt8)
  | smash (p v : ℕ)
  | set_cautious_mode (cautious : Bool)
  | set_noallocate_mode (noallocate : Bool)
  | set_verblevel (level : ℤ)
  | error_check

/-- The entry of the block with payload `p`, changed. -/
def Ledger.change (L : Ledger) (p : ℕ) (f : Entry → Entry) : Ledger :=
  { L with live := L.live.map fun c => if c.1 + HEADER = p then (c.1, f c.2) else c }

/-- A calloc'ed block. -/
def zeroed (n : ℕ) (junk : Buffer 4) : Entry :=
  ⟨n, MAGICHEADER, List.replicate n 0 ++ magic_footer ++ junk.bytes⟩

/-- A new block, unless blocks are not given out or this one fails. -/
def Ledger.new (L : Ledger) (fails : Bool) (answer : ℕ) (e : Entry) : Ledger :=
  if L.noallocate || fails then L
  else if answer = 0 ∨ answer ∈ L.live.map Prod.fst then { L with err := true }
  else { L with live := (answer, e) :: L.live }

def Ledger.step (L : Ledger) : Op → Ledger
  | .malloc fails answer junk size => L.new fails answer (Harness.fresh size junk)
  | .calloc fails answer junk num size => L.new fails answer (zeroed (num * size % 2 ^ 64) junk)
  | .free p =>
    if L.noallocate then L
    else { L with
      live := L.live.filter fun c => c.1 + HEADER ≠ p
      err := L.err || L.live.any fun c => c.1 + HEADER = p && c.2.spoiled }
  | .poke p off c => L.change p fun e => { e with bytes := e.bytes.set off c }
  | .smash p v => L.change p fun e => { e with magic_header := v }
  | .set_cautious_mode _ => L
  | .set_noallocate_mode noallocate => { L with noallocate := noallocate }
  | .set_verblevel _ => L
  | .error_check => { L with err := false }

/-- What a program does with the functions of harness.c and with the blocks. It writes to the payload,
    to the bytes behind it and to the header word before it. -/
def uses : System Harness Op where
  init s := s = init
  step s op s' :=
    match op with
    | .malloc fails answer junk size => ∃ p, s.test_malloc fails answer junk size = .ok (s', p)
    | .calloc fails answer junk num size =>
      ∃ p, s.test_calloc fails answer junk num size = .ok (s', p)
    | .free p => ∃ fuel, s.test_free fuel p = .ok s'
    | .poke p off c => (∃ x, s.heap (Harness.header p) = some x ∧ off < x.bytes.length) ∧
      s.change p (fun x => { x with bytes := x.bytes.set off c }) = .ok s'
    | .smash p v => s.change p (fun x => { x with magic_header := v }) = .ok s'
    | .set_cautious_mode cautious => s' = { s with cautious_mode := cautious }
    | .set_noallocate_mode noallocate => s' = { s with noallocate_mode := noallocate }
    | .set_verblevel level => s' = { s with verblevel := level }
    | .error_check => s' = s.error_check.2

/-! ### The list is the ledger -/

structure Rep (s : Harness) (L : Ledger) : Prop where
  seg : ∃ last, DSeg BlockEle.view s.heap 0 s.allocated L.live last 0
  nodup : (L.live.map Prod.fst).Nodup
  nonnull : 0 ∉ L.live.map Prod.fst
  exact : ∀ a, (s.heap a).isSome ↔ a ∈ L.live.map Prod.fst
  room : ∀ c ∈ L.live, c.1 + HEADER < 2 ^ 64
  count : s.allocated_count = L.live.length
  err : s.error_occurred = L.err
  mode : s.noallocate_mode = L.noallocate

theorem rep_init : Rep init ⟨[], false, false⟩ where
  seg := ⟨0, rfl, rfl⟩
  nodup := List.nodup_nil
  nonnull := List.not_mem_nil
  exact a := by simp [init]
  room := by simp
  count := rfl
  err := rfl
  mode := rfl

theorem header_payload (b : ℕ) : Harness.header (b + HEADER) = b := by
  rw [Harness.header, if_pos (Nat.le_add_left _ _), Nat.add_sub_cancel]

/-- The pointers that lead to a block are those to its payload. -/
theorem Rep.header_iff {L : Ledger} (h : Rep s L) (hb : b ∈ L.live.map Prod.fst) :
    Harness.header p = b ↔ b + HEADER = p := by
  refine ⟨fun hp => ?_, fun hp => hp ▸ header_payload b⟩
  obtain ⟨c, hc, rfl⟩ := List.mem_map.mp hb
  have hroom := h.room c hc
  rw [Harness.header] at hp
  by_cases hle : HEADER ≤ p
  · rw [if_pos hle] at hp
    omega
  · rw [if_neg hle] at hp
    simp only [HEADER] at hp hroom hle ⊢
    omega

/-- Splitting the ledger at a live block. -/
theorem Rep.split {L : Ledger} (h : Rep s L) {x : BlockEle} (hx : s.heap (Harness.header p) = some x) :
    ∃ l₁ b e l₂, L.live = l₁ ++ (b, e) :: l₂ ∧ Harness.header p = b ∧ b + HEADER = p ∧
      (∀ c ∈ l₁ ++ l₂, c.1 + HEADER ≠ p) := by
  have hmem : Harness.header p ∈ L.live.map Prod.fst := (h.exact _).mp (by rw [hx]; rfl)
  obtain ⟨⟨b, e⟩, hc, hb⟩ := List.mem_map.mp hmem
  obtain ⟨l₁, l₂, hl⟩ := List.append_of_mem hc
  have hp := (h.header_iff hmem).mp rfl
  refine ⟨l₁, b, e, l₂, hl, hb.symm, by rw [← hp, ← hb], fun c hin hcp => ?_⟩
  have hcb : c.1 = b := by
    have hsame : c.1 + HEADER = Harness.header p + HEADER := hcp.trans hp.symm
    rw [← hb] at hsame
    exact Nat.add_right_cancel hsame
  have hnd := h.nodup
  rw [hl, List.map_append, List.map_cons] at hnd
  obtain ⟨_, hnd₂, hcross⟩ := List.nodup_append.mp hnd
  rcases List.mem_append.mp hin with hin | hin
  · exact hcross c.1 (List.mem_map_of_mem hin) b List.mem_cons_self hcb
  · have hin₂ : c.1 ∈ l₂.map Prod.fst := List.mem_map_of_mem hin
    rw [hcb] at hin₂
    exact (List.nodup_cons.mp hnd₂).1 hin₂

/-! ### Each function -/

section Spec
variable {L : Ledger}

/-- Reports change nothing but the reports and the flag. -/
theorem Rep.of_same (h : Rep s L) {L' : Ledger} (hheap : s'.heap = s.heap)
    (hhead : s'.allocated = s.allocated) (hcount : s'.allocated_count = s.allocated_count)
    (hlive : L'.live = L.live) (herr : s'.error_occurred = L'.err)
    (hmode : s'.noallocate_mode = L'.noallocate) : Rep s' L' where
  seg := by rw [hheap, hhead, hlive]; exact h.seg
  nodup := hlive ▸ h.nodup
  nonnull := hlive ▸ h.nonnull
  exact := by rw [hheap, hlive]; exact h.exact
  room := hlive ▸ h.room
  count := by rw [hcount, hlive]; exact h.count
  err := herr
  mode := hmode

theorem report_fatal_ok (hrun : s.report_fatal = .ok s') : s' = s := by
  rw [Harness.report_fatal] at hrun
  split at hrun
  · exact (Except.ok.inj hrun).symm
  · cases hrun

/-- What printing changes. -/
theorem report_event_eq (s : Harness) (msg : Message) (fmt : String) (address : Option ℕ) :
    ∃ reports, s.report_event msg fmt address = { s with reports := reports } := by
  rw [Harness.report_event]
  split
  · exact ⟨s.reports, rfl⟩
  · exact ⟨_, rfl⟩

theorem test_malloc_spec (h : Rep s L) {fails : Bool} {answer size : ℕ} {junk : Buffer 4}
    (hrun : s.test_malloc fails answer junk size = .ok (s', p)) :
    Rep s' (L.step (.malloc fails answer junk size)) ∧
      ((p = 0 ∧ (L.noallocate = true ∨ fails = true ∨ answer = 0 ∨ answer ∈ L.live.map Prod.fst)) ∨
        (p = answer + HEADER ∧ L.noallocate = false ∧ fails = false ∧ answer ≠ 0 ∧
          answer ∉ L.live.map Prod.fst ∧ answer + (size + HEADER + 8) < 2 ^ 64)) := by
  have hbusy : (s.heap answer).isSome ↔ answer ∈ L.live.map Prod.fst := h.exact answer
  rw [Harness.test_malloc, h.mode] at hrun
  simp only [hbusy] at hrun
  rw [Ledger.step, Ledger.new]
  split at hrun
  · rename_i hmode
    obtain ⟨s₁, hfatal, hend⟩ := bind_ok hrun
    obtain rfl := report_fatal_ok hfatal
    cases hend
    rw [if_pos (by simp [hmode])]
    exact ⟨h, Or.inl ⟨rfl, Or.inl hmode⟩⟩
  · rename_i hmode
    split at hrun
    · rename_i hfails
      obtain ⟨reports, htold⟩ := report_event_eq s .warn "Malloc returning NULL" none
      rw [htold] at hrun
      cases hrun
      rw [if_pos (by simp [hfails])]
      exact ⟨h.of_same rfl rfl rfl rfl h.err h.mode, Or.inl ⟨rfl, Or.inr (Or.inl hfails)⟩⟩
    · rename_i hfails
      have hgive : ¬ (L.noallocate || fails) = true := by simp [hmode, hfails]
      rw [if_neg hgive]
      split at hrun
      · rename_i hnone
        obtain ⟨s₁, hfatal, hend⟩ := bind_ok hrun
        obtain rfl := report_fatal_ok hfatal
        cases hend
        rw [if_pos hnone]
        exact ⟨h.of_same rfl rfl rfl rfl rfl h.mode, Or.inl ⟨rfl, Or.inr (Or.inr hnone)⟩⟩
      · rename_i hgood
        rw [if_neg hgood]
        split at hrun
        · cases hrun
        · rename_i hroom
          obtain ⟨h0, hnew⟩ := not_or.mp hgood
          have hfree : s.heap answer = none := by
            rw [← Option.not_isSome_iff_eq_none, hbusy]
            exact hnew
          obtain ⟨last, hs⟩ := h.seg
          obtain ⟨heap, last', hpush, hs', hsome⟩ := @pushFront_spec _ _ _ _ _ links _ _ _ _ _
            ⟨0, 0, size, MAGICHEADER, (Harness.fresh size junk).bytes⟩ _ hs h.nodup h.nonnull hfree
          obtain ⟨heap₁, hpush₁, hrun⟩ := bind_ok hrun
          obtain rfl : heap₁ = heap := Except.ok.inj (hpush₁.symm.trans hpush)
          cases hrun
          refine ⟨?_, Or.inr ⟨rfl, by simpa using hmode, by simpa using hfails, h0, hnew, by omega⟩⟩
          refine ⟨⟨last', hs'⟩, List.nodup_cons.mpr ⟨hnew, h.nodup⟩, ?_, fun a => ?_, ?_, ?_, h.err, rfl⟩
          · rw [List.map_cons, List.mem_cons, not_or]
            exact ⟨Ne.symm h0, h.nonnull⟩
          · rw [hsome a, List.map_cons, List.mem_cons]
            exact or_congr Iff.rfl (h.exact a)
          · refine List.forall_mem_cons.mpr ⟨?_, h.room⟩
            change answer + HEADER < 2 ^ 64
            omega
          · change s.allocated_count + 1 = L.live.length + 1
            rw [h.count]

/-- A change of a block is a change of its entry. -/
theorem change_spec (h : Rep s L) {f : BlockEle → BlockEle} {g : Entry → Entry}
    (hfg : ∀ x, (f x).view = (x.view.1, g x.view.2.1, x.view.2.2))
    (hrun : s.change p f = .ok s') : Rep s' (L.change p g) := by
  obtain ⟨x, hget, hs'⟩ := bind_ok hrun
  cases hs'
  cases hx : s.heap (Harness.header p) with
  | none =>
    rw [Heap.get, hx] at hget
    cases hget
  | some y =>
    rw [Heap.get_of_eq hx] at hget
    cases hget
    obtain ⟨l₁, b, e, l₂, hl, rfl, hp, hother⟩ := h.split hx
    obtain ⟨last, hs⟩ := h.seg
    have hmap : ∀ l : List (ℕ × Entry), (∀ c ∈ l, c.1 + HEADER ≠ p) →
        l.map (fun c => if c.1 + HEADER = p then (c.1, g c.2) else c) = l := fun l hl => by
      refine (List.map_congr_left fun c hc => if_neg (hl c hc)).trans (List.map_id l)
    have hlive : (L.change p g).live = l₁ ++ (Harness.header p, g e) :: l₂ := by
      rw [Ledger.change, hl, List.map_append, List.map_cons,
        hmap l₁ fun c hc => hother c (List.mem_append_left _ hc),
        hmap l₂ fun c hc => hother c (List.mem_append_right _ hc), if_pos hp]
    have hview : x.view.2.1 = e := by
      rw [hl] at hs
      obtain ⟨q, r, _, rfl, y, n, hy, hv, _⟩ := DSeg.append.mp hs
      obtain rfl := Option.some.inj (hx.symm.trans hy)
      rw [hv]
    have hfst : (L.change p g).live.map Prod.fst = L.live.map Prod.fst := by
      rw [hlive, hl]
      simp
    refine ⟨⟨last, ?_⟩, hfst ▸ h.nodup, hfst ▸ h.nonnull, fun a => ?_, fun c hc => ?_, ?_, h.err, h.mode⟩
    · rw [hlive]
      rw [hl] at hs
      have hnd := h.nodup
      rw [hl] at hnd
      exact hs.setPayload hnd hx (by rw [hfg, hview])
    · rw [hfst, ← h.exact a]
      exact Heap.put_isSome_of_live (by rw [hx]; rfl)
    · have hin : c.1 ∈ L.live.map Prod.fst := hfst ▸ List.mem_map_of_mem hc
      obtain ⟨d, hd, hdc⟩ := List.mem_map.mp hin
      exact hdc ▸ h.room d hd
    · have hlen := congrArg List.length hfst
      rw [List.length_map, List.length_map] at hlen
      rw [hlen]
      exact h.count

/-- The search finds exactly the live blocks, unless the fuel runs out. -/
theorem searchLoop_spec : ∀ {l : List (ℕ × Entry)} {n prev q last : ℕ} (found : Bool),
    DSeg BlockEle.view s.heap prev q l last 0 → 0 ∉ l.map Prod.fst →
    Harness.searchLoop s.heap b n q found = .ok (found || decide (b ∈ l.map Prod.fst)) ∨
      Harness.searchLoop s.heap b n q found = .error .fuel ∧ n ≤ l.length
  | _, 0, _, _, _, _, _, _ => Or.inr ⟨rfl, Nat.zero_le _⟩
  | [], n + 1, prev, q, last, found, hs, _ => by
      rw [Harness.searchLoop, if_pos (Or.inl hs.2)]
      simp
  | (a, e) :: l, n + 1, prev, q, last, found, hs, h0 => by
      obtain ⟨rfl, x, r, hx, hv, hs⟩ := hs
      rw [List.map_cons, List.mem_cons, not_or] at h0
      obtain rfl : x.next = r := congrArg (fun v => v.2.2) hv
      cases found with
      | true => exact Or.inl (by rw [Harness.searchLoop, if_pos (Or.inr rfl), Bool.true_or])
      | false =>
        have hgo : ¬ (q = 0 ∨ false = true) := by simp [Ne.symm h0.1]
        rw [Harness.searchLoop, if_neg hgo, Heap.get_of_eq hx, ok_bind, List.length_cons]
        have hmem : (false || decide (b ∈ ((q, e) :: l).map Prod.fst)) =
            (decide (q = b) || decide (b ∈ l.map Prod.fst)) := by
          by_cases hq : q = b
          · simp [hq]
          · simp [hq, Ne.symm hq]
        rw [hmem]
        refine (searchLoop_spec (decide (q = b)) hs h0.2).imp_right fun hfuel => ⟨hfuel.1, ?_⟩
        have hle := hfuel.2
        omega

/-- In cautious mode the check reports exactly the blocks that are not live. -/
theorem checkAllocated_spec (h : Rep s L) (fuel : ℕ) :
    s.checkAllocated fuel p = .ok (if s.cautious_mode = true ∧ Harness.header p ∉ L.live.map Prod.fst then
        s.error "Attempted to free unallocated block.  Address = %p" p else s) ∨
      s.checkAllocated fuel p = .error .fuel ∧ fuel ≤ L.live.length := by
  obtain ⟨last, hs⟩ := h.seg
  rw [Harness.checkAllocated]
  by_cases hmode : s.cautious_mode = true
  · rw [if_pos hmode]
    rcases @searchLoop_spec s (Harness.header p) _ fuel _ _ _ false hs h.nonnull with hrun | ⟨hrun, hle⟩
    · refine Or.inl ?_
      rw [hrun, ok_bind, Bool.false_or]
      by_cases hin : Harness.header p ∈ L.live.map Prod.fst
      · rw [if_pos (decide_eq_true hin), if_neg fun hbad => hbad.2 hin]
      · rw [if_neg (by simpa using hin), if_pos ⟨hmode, hin⟩]
    · exact Or.inr ⟨by rw [hrun]; rfl, hle⟩
  · rw [if_neg hmode, if_neg fun hbad => hmode hbad.1]
    exact Or.inl rfl

/-- A report keeps all but the reports and the flag. -/
structure Told (s s' : Harness) (bad : Bool) : Prop where
  heap : s'.heap = s.heap
  allocated : s'.allocated = s.allocated
  count : s'.allocated_count = s.allocated_count
  mode : s'.noallocate_mode = s.noallocate_mode
  err : s'.error_occurred = (s.error_occurred || bad)

theorem told_if (s : Harness) (p : ℕ) (c : Prop) [Decidable c] (fmt : String) :
    Told s (if c then s.error fmt p else s) (decide c) := by
  by_cases hc : c
  · obtain ⟨reports, htold⟩ := report_event_eq s .error fmt (some p)
    rw [if_pos hc, Harness.error, htold]
    exact ⟨rfl, rfl, rfl, rfl, by simp [hc]⟩
  · rw [if_neg hc]
    exact ⟨rfl, rfl, rfl, rfl, by simp [hc]⟩

theorem find_header_spec (hp : p ≠ 0) {fuel : ℕ} {x : BlockEle}
    (hcheck : s.checkAllocated fuel p = .ok s) (hx : s.heap (Harness.header p) = some x) :
    ∃ s₁, s.find_header fuel p = .ok (s₁, x) ∧ Told s s₁ (decide (x.magic_header ≠ MAGICHEADER)) := by
  refine ⟨_, ?_, told_if s p _ "Attempted to free unallocated or corrupted block.  Address = %p"⟩
  rw [Harness.find_header]
  simp only [if_neg hp, hcheck, ok_bind, Heap.get_of_eq hx]

/-- The ledger without a block, once the list is linked past it. -/
theorem Rep.remove (h : Rep s L) (hl : L.live = l₁ ++ (b, e) :: l₂) {heap : Heap ℕ BlockEle}
    {head last : ℕ} (hs : DSeg BlockEle.view heap 0 head (l₁ ++ l₂) last 0)
    (hframe : Framed s.heap heap (l₁ ++ l₂)) (hheap : s'.heap = heap.del b) (hhead : s'.allocated = head)
    (hcount : s'.allocated_count = s.allocated_count - 1) {L' : Ledger} (hlive : L'.live = l₁ ++ l₂)
    (herr : s'.error_occurred = L'.err) (hmode : s'.noallocate_mode = L'.noallocate) : Rep s' L' := by
  have hnd := h.nodup
  rw [hl, List.map_append, List.map_cons] at hnd
  obtain ⟨hnd₁, hnd₂, hcross⟩ := List.nodup_append.mp hnd
  have hout : b ∉ (l₁ ++ l₂).map Prod.fst := by
    rw [List.map_append, List.mem_append, not_or]
    exact ⟨fun hin => hcross b hin b List.mem_cons_self rfl, (List.nodup_cons.mp hnd₂).1⟩
  have hsub : ((l₁ ++ l₂).map Prod.fst).Sublist (L.live.map Prod.fst) := by
    rw [hl]
    exact (List.Sublist.append_left (List.sublist_cons_self _ _) _).map _
  refine ⟨⟨last, ?_⟩, hlive ▸ h.nodup.sublist hsub, hlive ▸ fun hin => h.nonnull (hsub.subset hin),
    fun a => ?_, fun c hc => ?_, ?_, herr, hmode⟩
  · rw [hheap, hhead, hlive]
    exact hs.congr fun a ha => Heap.del_of_ne fun hab => hout (hab ▸ ha)
  · rw [hheap, hlive, Heap.del_isSome, hframe.2 a, h.exact a, hl]
    constructor
    · rintro ⟨hne, hin⟩
      rw [List.map_append, List.map_cons, List.mem_append, List.mem_cons] at hin
      rw [List.map_append, List.mem_append]
      exact hin.imp_right fun hin => hin.resolve_left hne
    · intro hin
      exact ⟨fun hab => hout (hab ▸ hin), hl ▸ hsub.subset hin⟩
  · rw [hlive] at hc
    refine h.room c ?_
    rw [hl]
    exact (List.Sublist.append_left (List.sublist_cons_self _ _) _).subset hc
  · rw [hcount, h.count, hl, hlive, List.length_append, List.length_append, List.length_cons]
    omega

theorem step_free (hgive : ¬ L.noallocate = true) (hl : L.live = l₁ ++ (b, e) :: l₂)
    (hp : b + HEADER = p) (hother : ∀ c ∈ l₁ ++ l₂, c.1 + HEADER ≠ p) :
    (L.step (.free p)).live = l₁ ++ l₂ ∧ (L.step (.free p)).err = (L.err || e.spoiled) ∧
      (L.step (.free p)).noallocate = L.noallocate := by
  have hkeep : ∀ l : List (ℕ × Entry), (∀ c ∈ l, c.1 + HEADER ≠ p) →
      l.filter (fun c => c.1 + HEADER ≠ p) = l ∧
      l.any (fun c => c.1 + HEADER = p && c.2.spoiled) = false := fun l hl =>
    ⟨List.filter_eq_self.mpr fun c hc => decide_eq_true (hl c hc),
      List.any_eq_false.mpr fun c hc => by simp [hl c hc]⟩
  obtain ⟨hfilter₁, hany₁⟩ := hkeep l₁ fun c hc => hother c (List.mem_append_left _ hc)
  obtain ⟨hfilter₂, hany₂⟩ := hkeep l₂ fun c hc => hother c (List.mem_append_right _ hc)
  rw [Ledger.step, if_neg hgive, hl]
  refine ⟨?_, ?_, rfl⟩
  · rw [List.filter_append, List.filter_cons_of_neg (by simpa using hp), hfilter₁, hfilter₂]
  · rw [List.any_append, List.any_cons, hany₁, hany₂]
    simp [hp]

/-- A live block is taken out, and an error is noted if it is spoiled. -/
theorem test_free_live (h : Rep s L) (hmode : ¬ s.noallocate_mode = true) (hp : p ≠ 0) {fuel : ℕ}
    {x : BlockEle} (hcheck : s.checkAllocated fuel p = .ok s)
    (hx : s.heap (Harness.header p) = some x) :
    ∃ s', s.test_free fuel p = .ok s' ∧ Rep s' (L.step (.free p)) := by
  obtain ⟨l₁, b, e, l₂, hl, rfl, hpay, hother⟩ := h.split hx
  obtain ⟨last, hs⟩ := h.seg
  have hnd := h.nodup
  have hnull := h.nonnull
  rw [hl] at hs hnd hnull
  obtain ⟨y, bp, bn, heap, head, last', hy, hv, hrun, hs', hframe⟩ :=
    @bypass_spec _ _ _ _ _ links _ _ _ _ _ _ _ _ hs hnd hnull
  obtain rfl : x = y := Option.some.inj (hx.symm.trans hy)
  obtain rfl : x.prev = bp := congrArg (fun v => v.1) hv
  obtain rfl : x.next = bn := congrArg (fun v => v.2.2) hv
  have hentry : (⟨x.payload_size, x.magic_header, x.bytes⟩ : Entry) = e := congrArg (fun v => v.2.1) hv
  obtain ⟨s₁, hfind, htold₁⟩ := find_header_spec hp hcheck hx
  obtain ⟨s₂, hs₂⟩ : ∃ s₂, (if Harness.find_footer x ≠ magic_footer then
    s₁.error "Corruption detected in block with address %p when attempting to free it" p else s₁) = s₂ :=
    ⟨_, rfl⟩
  have htold₂ := told_if s₁ p (Harness.find_footer x ≠ magic_footer)
    "Corruption detected in block with address %p when attempting to free it"
  rw [hs₂] at htold₂
  obtain ⟨hlive, herr, hsame⟩ := step_free (h.mode ▸ hmode) hl hpay hother
  refine ⟨{ s₂ with
      heap := heap.del (Harness.header p), allocated := head,
      allocated_count := s₂.allocated_count - 1 }, ?_, h.remove hl hs' hframe rfl rfl ?_ hlive ?_ ?_⟩
  · rw [Harness.test_free, if_neg hmode, if_neg hp, hfind, ok_bind]
    simp only [hs₂, htold₂.heap, htold₁.heap, htold₂.allocated, htold₁.allocated, hrun, ok_bind]
  · change s₂.allocated_count - 1 = _
    rw [htold₂.count, htold₁.count]
  · change s₂.error_occurred = _
    rw [htold₂.err, htold₁.err, herr, h.err, Bool.or_assoc, ← hentry]
    rfl
  · change s₂.noallocate_mode = _
    rw [htold₂.mode, htold₁.mode, hsame, h.mode]

/-- Freeing what is no live payload: it is an error in cautious mode, and then the code goes on to read a
    block that does not exist. -/
theorem test_free_unknown (h : Rep s L) (hmode : ¬ s.noallocate_mode = true) (hp : p ≠ 0)
    (hout : Harness.header p ∉ L.live.map Prod.fst) (fuel : ℕ) :
    (s.test_free fuel p = .error .fault ∧ (s.cautious_mode = true → s.checkAllocated fuel p =
      .ok (s.error "Attempted to free unallocated block.  Address = %p" p))) ∨
    s.test_free fuel p = .error .fuel ∧ fuel ≤ L.live.length := by
  have hnone : s.heap (Harness.header p) = none := by
    rw [← Option.not_isSome_iff_eq_none]
    exact fun hsome => hout ((h.exact _).mp hsome)
  rw [Harness.test_free, if_neg hmode, if_neg hp, Harness.find_header]
  simp only [if_neg hp]
  rcases @checkAllocated_spec s p L h fuel with hcheck | ⟨hcheck, hle⟩
  · refine Or.inl ⟨?_, fun hcautious => ?_⟩
    · have hget : ∀ s₀ : Harness, s₀.heap = s.heap → s₀.heap.get (Harness.header p) = .error .fault :=
        fun s₀ hs₀ => by rw [hs₀, Heap.get, hnone]
      rw [hcheck, ok_bind, hget _ (told_if s p _ _).heap]
      rfl
    · rw [hcheck, if_pos ⟨hcautious, hout⟩]
  · exact Or.inr ⟨by rw [hcheck]; rfl, hle⟩

theorem test_free_spec (h : Rep s L) {fuel : ℕ} (hrun : s.test_free fuel p = .ok s') :
    Rep s' (L.step (.free p)) := by
  by_cases hmode : s.noallocate_mode = true
  · rw [Harness.test_free, if_pos hmode] at hrun
    obtain rfl := report_fatal_ok hrun
    rw [Ledger.step, if_pos (h.mode ▸ hmode)]
    exact h
  have hgive : ¬ L.noallocate = true := h.mode ▸ hmode
  by_cases hp : p = 0
  · rw [Harness.test_free, if_neg hmode, if_pos hp] at hrun
    cases hrun
    have hnone : ∀ c : ℕ × Entry, c.1 + HEADER ≠ p := fun c => by
      rw [hp]
      simp [HEADER]
    rw [Ledger.step, if_neg hgive]
    refine h.of_same rfl rfl rfl (List.filter_eq_self.mpr fun c _ => decide_eq_true (hnone c)) ?_ h.mode
    rw [h.err]
    simp [hnone]
  by_cases hin : Harness.header p ∈ L.live.map Prod.fst
  · obtain ⟨x, hx⟩ := Option.isSome_iff_exists.mp ((h.exact _).mpr hin)
    rcases @checkAllocated_spec s p L h fuel with hcheck | ⟨hcheck, _⟩
    · rw [if_neg fun hbad => hbad.2 hin] at hcheck
      obtain ⟨s'', hrun', hrep⟩ := test_free_live h hmode hp hcheck hx
      cases hrun.symm.trans hrun'
      exact hrep
    · rw [Harness.test_free, if_neg hmode, if_neg hp, Harness.find_header] at hrun
      simp only [if_neg hp, hcheck] at hrun
      cases hrun
  · rcases test_free_unknown h hmode hp hin fuel with ⟨hfault, _⟩ | ⟨hfault, _⟩
    · cases hrun.symm.trans hfault
    · cases hrun.symm.trans hfault

theorem test_calloc_spec (h : Rep s L) {fails : Bool} {answer num size : ℕ} {junk : Buffer 4}
    (hrun : s.test_calloc fails answer junk num size = .ok (s', p)) :
    Rep s' (L.step (.calloc fails answer junk num size)) := by
  obtain ⟨⟨s₁, mem⟩, hmalloc, hrest⟩ := bind_ok hrun
  obtain ⟨hrep, hcases⟩ := test_malloc_spec h hmalloc
  simp only at hrest
  rw [Ledger.step, Ledger.new] at hrep
  rw [Ledger.step, Ledger.new]
  rcases hcases with ⟨rfl, hnone⟩ | ⟨rfl, hmode, hfails, h0, hnew, -⟩
  · rw [if_pos rfl] at hrest
    cases hrest
    split at hrep
    · rename_i hkeep
      rw [if_pos hkeep]
      exact hrep
    · rename_i hgive
      rw [Bool.or_eq_true, not_or] at hgive
      have hbad := (hnone.resolve_left hgive.1).resolve_left hgive.2
      rw [if_pos hbad] at hrep
      rw [if_neg (by simpa using hgive), if_pos hbad]
      exact hrep
  · have hgive : ¬ (L.noallocate || fails) = true := by simp [hmode, hfails]
    have hgood : ¬ (answer = 0 ∨ answer ∈ L.live.map Prod.fst) := not_or.mpr ⟨h0, hnew⟩
    rw [if_neg hgive, if_neg hgood] at hrep ⊢
    rw [if_neg (by simp [HEADER])] at hrest
    obtain ⟨s₂, hchange, hrest⟩ := bind_ok hrest
    cases hrest
    have hfill := change_spec hrep (g := fun e =>
      { e with bytes := List.replicate (num * size % 2 ^ 64) 0 ++ e.bytes.drop (num * size % 2 ^ 64) })
      (fun _ => rfl) hchange
    have hothers : L.live.map (fun c => if c.1 + HEADER = answer + HEADER then (c.1, { c.2 with
        bytes := List.replicate (num * size % 2 ^ 64) 0 ++ c.2.bytes.drop (num * size % 2 ^ 64) })
        else c) = L.live := by
      refine (List.map_congr_left fun c hc => if_neg fun hcp => hnew ?_).trans (List.map_id _)
      exact Nat.add_right_cancel hcp ▸ List.mem_map_of_mem hc
    have hzeroed : Ledger.change { L with live := (answer, Harness.fresh (num * size % 2 ^ 64) junk) ::
        L.live } (answer + HEADER) (fun e => { e with
          bytes := List.replicate (num * size % 2 ^ 64) 0 ++ e.bytes.drop (num * size % 2 ^ 64) }) =
        { L with live := (answer, zeroed (num * size % 2 ^ 64) junk) :: L.live } := by
      rw [Ledger.change, List.map_cons, hothers, if_pos rfl]
      simp [Harness.fresh, zeroed]
    rw [hzeroed] at hfill
    exact hfill

end Spec

/-- Every step of a program follows the ledger. -/
theorem rep_step {L : Ledger} {op : Op} (h : Rep s L) (hstep : uses.step s op s') :
    Rep s' (L.step op) := by
  cases op with
  | malloc fails answer junk size =>
    obtain ⟨p, hrun⟩ := hstep
    exact (test_malloc_spec h hrun).1
  | calloc fails answer junk num size =>
    obtain ⟨p, hrun⟩ := hstep
    exact test_calloc_spec h hrun
  | free p =>
    obtain ⟨fuel, hrun⟩ := hstep
    exact test_free_spec h hrun
  | poke p off c =>
    have hrep : Rep s' (L.change p fun e => { e with bytes := e.bytes.set off c }) :=
      change_spec h (fun _ => rfl) hstep.2
    exact hrep
  | smash p v =>
    have hrep : Rep s' (L.change p fun e => { e with magic_header := v }) :=
      change_spec h (fun _ => rfl) hstep
    exact hrep
  | set_cautious_mode cautious =>
    obtain rfl := hstep
    exact h.of_same rfl rfl rfl rfl h.err h.mode
  | set_noallocate_mode noallocate =>
    obtain rfl := hstep
    exact h.of_same rfl rfl rfl rfl h.err rfl
  | set_verblevel level =>
    obtain rfl := hstep
    exact h.of_same rfl rfl rfl rfl h.err h.mode
  | error_check =>
    obtain rfl := hstep
    exact h.of_same rfl rfl rfl rfl rfl h.mode

/-! ### Runs -/

/-- What has been done, in the ledger. -/
def ledger (ops : List Op) : Ledger := ops.foldl Ledger.step ⟨[], false, false⟩

/-- A junk-filled end of a block. -/
def tail : Buffer 4 := ⟨[0, 0, 0, 0], rfl⟩

/-- Two blocks, of which the older one is overrun by a byte and freed. -/
def overrun : List Op :=
  [.malloc false 64 tail 2, .malloc false 160 tail 1, .poke 96 2 0, .free 96]

end Labs.TestMalloc
