import SystemsLabs.Cprogramming.HarnessLedger
import SystemsLabs.Cprogramming.QueueFree

/-! @lab cprogramminglab | file:harness.c | structure:two views of the same functions |
    main result:the queue's view of the harness is the harness

    The queue knows the harness by the payloads it gets: its memory has typed blocks at their
    addresses, and of harness.c it has the counter and the mode. The headers, the footers and the list
    are below that. Every run of harness.c looks like a history of the queue's harness: a block that is
    given out is a `malloc` that succeeds, one that is taken back is a `free`, and what the queue does
    not see does not happen there. -/

namespace Labs.Queue
open Schemes
open Labs.TestMalloc (HEADER Ledger Entry)

variable {d d' : TestMalloc.Harness} {s : Harness} {L : Ledger} {p : Ptr}

/-- The blocks are the payloads, and the mode is the same. -/
structure Shows (d : TestMalloc.Harness) (s : Harness) : Prop where
  live : ∀ p : Ptr, (s.mem p).isSome ↔ ∃ b, (d.heap b).isSome ∧ b + HEADER = p.toNat
  mode : s.noallocate_mode = d.noallocate_mode

theorem Shows.ledger (h : Shows d s) (hrep : TestMalloc.Rep d L) (p : Ptr) :
    (s.mem p).isSome ↔ ∃ b ∈ L.live.map Prod.fst, b + HEADER = p.toNat := by
  rw [h.live p]
  exact exists_congr fun b => and_congr (hrep.exact b) Iff.rfl

theorem Shows.of_ledger (hrep : TestMalloc.Rep d L)
    (hlive : ∀ p : Ptr, (s.mem p).isSome ↔ ∃ b ∈ L.live.map Prod.fst, b + HEADER = p.toNat)
    (hmode : s.noallocate_mode = L.noallocate) : Shows d s :=
  ⟨fun p => (hlive p).trans (exists_congr fun b => and_congr (hrep.exact b).symm Iff.rfl),
    hmode.trans hrep.mode.symm⟩

/-- The queue does not see a step that leaves the blocks and the mode alone. -/
theorem Shows.same (h : Shows d s) (hrep : TestMalloc.Rep d L) {L' : Ledger} (hrep' : TestMalloc.Rep d' L')
    (hlive : L'.live.map Prod.fst = L.live.map Prod.fst) (hmode : L'.noallocate = L.noallocate) :
    ∃ es s', histories.Run s es s' ∧ Shows d' s' :=
  ⟨[], s, .nil s, .of_ledger hrep' (hlive.symm ▸ h.ledger hrep) (by rw [h.mode, hrep.mode, hmode])⟩

theorem payload_toNat {b : ℕ} (hroom : b + HEADER < 2 ^ 64) :
    (BitVec.ofNat 64 (b + HEADER)).toNat = b + HEADER := by
  rw [BitVec.toNat_ofNat, Nat.mod_eq_of_lt hroom]

theorem Shows.new (h : Shows d s) (hrep : TestMalloc.Rep d L) {fails : Bool} {answer : ℕ} {e : Entry}
    (hrep' : TestMalloc.Rep d' (L.new fails answer e)) (x : Block) :
    ∃ es s', histories.Run s es s' ∧ Shows d' s' := by
  rw [Ledger.new] at hrep'
  split at hrep'
  · exact h.same hrep hrep' rfl rfl
  · rename_i hgive
    split at hrep'
    · exact h.same hrep hrep' rfl rfl
    · rename_i hgood
      rw [Bool.or_eq_true, not_or] at hgive
      have hroom : answer + HEADER < 2 ^ 64 := hrep'.room (answer, e) List.mem_cons_self
      have hnat := payload_toNat hroom
      have hne : BitVec.ofNat 64 (answer + HEADER) ≠ NULL := fun hnull => by
        have hzero := congrArg BitVec.toNat hnull
        rw [hnat] at hzero
        cases hzero
      have hfree : s.mem (BitVec.ofNat 64 (answer + HEADER)) = none := by
        rw [← Option.not_isSome_iff_eq_none, h.ledger hrep, hnat]
        rintro ⟨b, hb, hsame⟩
        obtain rfl : b = answer := Nat.add_right_cancel hsame
        exact hgood (Or.inr hb)
      have hmode : s.noallocate_mode = L.noallocate := h.mode.trans hrep.mode
      have hrun : s.test_malloc (BitVec.ofNat 64 (answer + HEADER)) x = .ok ({ s with
          mem := s.mem.put (BitVec.ofNat 64 (answer + HEADER)) x
          allocated_count := s.allocated_count + 1 }, BitVec.ofNat 64 (answer + HEADER)) := by
        rw [Harness.test_malloc, hmode, if_neg hgive.1, malloc_ok hne hfree]
        exact if_neg hne
      refine ⟨[.malloc (BitVec.ofNat 64 (answer + HEADER)) x], _, .single ⟨_, hrun⟩,
        .of_ledger hrep' (fun p => ?_) hmode⟩
      have hfirst : p = BitVec.ofNat 64 (answer + HEADER) ↔ answer + HEADER = p.toNat := by
        rw [← BitVec.toNat_inj, hnat, eq_comm]
      rw [Heap.put_isSome, h.ledger hrep, hfirst]
      simp only [List.map_cons, List.mem_cons, exists_eq_or_imp]

theorem Shows.free (h : Shows d s) (hrep : TestMalloc.Rep d L) {q : ℕ}
    (hrep' : TestMalloc.Rep d' (L.step (.free q))) :
    ∃ es s', histories.Run s es s' ∧ Shows d' s' := by
  rw [Ledger.step] at hrep'
  split at hrep'
  · exact h.same hrep hrep' rfl rfl
  · rename_i hgive
    have hmode : s.noallocate_mode = false := by
      rw [h.mode, hrep.mode]
      simpa using hgive
    have hmem : ∀ b, b ∈ (L.live.filter fun c => c.1 + HEADER ≠ q).map Prod.fst ↔
        b ∈ L.live.map Prod.fst ∧ b + HEADER ≠ q := fun b => by
      simp only [List.mem_map, List.mem_filter, decide_eq_true_eq]
      constructor
      · rintro ⟨c, ⟨hc, hcq⟩, rfl⟩
        exact ⟨⟨c, hc, rfl⟩, hcq⟩
      · rintro ⟨⟨c, hc, rfl⟩, hcq⟩
        exact ⟨c, ⟨hc, hcq⟩, rfl⟩
    by_cases hlive : ∃ b ∈ L.live.map Prod.fst, b + HEADER = q
    · obtain ⟨b, hb, rfl⟩ := hlive
      obtain ⟨c, hc, rfl⟩ := List.mem_map.mp hb
      have hnat := payload_toNat (hrep.room c hc)
      have hsome : (s.mem (BitVec.ofNat 64 (c.1 + HEADER))).isSome :=
        (h.ledger hrep _).mpr ⟨c.1, hb, hnat.symm⟩
      have hne : BitVec.ofNat 64 (c.1 + HEADER) ≠ NULL := fun hnull => by
        have hzero := congrArg BitVec.toNat hnull
        rw [hnat] at hzero
        cases hzero
      obtain ⟨x, hx⟩ := Option.isSome_iff_exists.mp hsome
      refine ⟨[.free (BitVec.ofNat 64 (c.1 + HEADER))], _, .single (test_free_of hmode hx hne),
        .of_ledger hrep' (fun p => ?_) (h.mode.trans hrep.mode)⟩
      have hgone : ((s.without [BitVec.ofNat 64 (c.1 + HEADER)]).mem p).isSome ↔
          p ≠ BitVec.ofNat 64 (c.1 + HEADER) ∧ (s.mem p).isSome := by
        simp only [Harness.without, List.mem_singleton]
        split <;> simp_all
      rw [hgone, h.ledger hrep]
      constructor
      · rintro ⟨hother, b, hb, hbp⟩
        refine ⟨b, (hmem b).mpr ⟨hb, fun hsame => hother ?_⟩, hbp⟩
        rw [← BitVec.toNat_inj, ← hbp, hsame, hnat]
      · rintro ⟨b, hb, hbp⟩
        obtain ⟨hb, hother⟩ := (hmem b).mp hb
        refine ⟨fun hsame => hother ?_, b, hb, hbp⟩
        rw [hbp, hsame, hnat]
    · refine h.same hrep hrep' (congrArg (List.map Prod.fst) (List.filter_eq_self.mpr fun c hc => ?_)) rfl
      exact decide_eq_true fun hcq => hlive ⟨c.1, List.mem_map_of_mem hc, hcq⟩

theorem change_keys (L : Ledger) (q : ℕ) (f : Entry → Entry) :
    (L.change q f).live.map Prod.fst = L.live.map Prod.fst := by
  rw [Ledger.change, List.map_map]
  refine List.map_congr_left fun c _ => ?_
  rw [Function.comp_apply]
  split <;> rfl

/-- Each step of harness.c is at most one event of the history. -/
theorem Shows.step (h : Shows d s) (hrep : TestMalloc.Rep d L) {op : TestMalloc.Op}
    (hstep : TestMalloc.uses.step d op d') (x : Block) :
    ∃ es s', histories.Run s es s' ∧ Shows d' s' := by
  have hrep' := TestMalloc.rep_step hrep hstep
  cases op with
  | malloc fails answer junk size => exact h.new hrep hrep' x
  | calloc fails answer junk num size => exact h.new hrep hrep' x
  | free q => exact h.free hrep hrep'
  | poke q off c => exact h.same hrep hrep' (change_keys L q _) rfl
  | smash q v => exact h.same hrep hrep' (change_keys L q _) rfl
  | set_cautious_mode cautious => exact h.same hrep hrep' rfl rfl
  | set_noallocate_mode noallocate =>
    have hlive := h.ledger hrep
    exact ⟨[.setNoallocateMode noallocate], { s with noallocate_mode := noallocate }, .single rfl,
      .of_ledger hrep' hlive rfl⟩
  | set_verblevel level => exact h.same hrep hrep' rfl rfl
  | error_check => exact h.same hrep hrep' rfl rfl

/-- The two count the same blocks. -/
theorem Shows.count (h : Shows d s) (hrep : TestMalloc.Rep d L) (hs : Counted s) :
    s.allocation_check.toNat = d.allocation_check := by
  obtain ⟨live, hnd, -, hlive, hcount⟩ := hs
  have hkeys : (L.live.map fun c => c.1 + HEADER).Nodup := by
    have hmap := hrep.nodup.map (f := (· + HEADER)) fun _ _ => Nat.add_right_cancel
    rwa [List.map_map] at hmap
  have hperm : (live.map BitVec.toNat).Perm (L.live.map fun c => c.1 + HEADER) := by
    refine (List.perm_ext_iff_of_nodup (hnd.map fun _ _ => BitVec.eq_of_toNat_eq) hkeys).mpr fun n => ?_
    constructor
    · intro hn
      obtain ⟨p, hp, rfl⟩ := List.mem_map.mp hn
      obtain ⟨b, hb, hbp⟩ := (h.ledger hrep p).mp ((hlive p).mp hp)
      obtain ⟨c, hc, rfl⟩ := List.mem_map.mp hb
      exact List.mem_map.mpr ⟨c, hc, hbp⟩
    · intro hn
      obtain ⟨c, hc, rfl⟩ := List.mem_map.mp hn
      have hnat := payload_toNat (hrep.room c hc)
      refine List.mem_map.mpr ⟨_, (hlive _).mpr ((h.ledger hrep _).mpr ?_), hnat⟩
      exact ⟨c.1, List.mem_map_of_mem hc, hnat.symm⟩
  have hlen := hperm.length_eq
  rw [List.length_map, List.length_map] at hlen
  rw [Harness.allocation_check, hcount, hlen, ← hrep.count]
  rfl

theorem Shows.run {d₀ : TestMalloc.Harness} {ops : List TestMalloc.Op}
    (hrun : TestMalloc.uses.Run d₀ ops d) :
    ∀ {L s₀}, TestMalloc.Rep d₀ L → Shows d₀ s₀ → histories.Reachable s₀ →
      ∃ L s, TestMalloc.Rep d L ∧ Shows d s ∧ histories.Reachable s := by
  induction hrun with
  | nil d => exact fun hrep hshows hreach => ⟨_, _, hrep, hshows, hreach⟩
  | cons hstep _ ih =>
    intro L s₀ hrep hshows hreach
    obtain ⟨es, s₁, hes, hshows₁⟩ := hshows.step hrep hstep (.chars [])
    exact ih (TestMalloc.rep_step hrep hstep) hshows₁ (hreach.run hes)

/-- Every run of harness.c is a history of the queue's harness, up to what the queue does not see, and
    `allocation_check` gives the same in both. -/
theorem runs_are_histories {ops : List TestMalloc.Op}
    (hrun : TestMalloc.uses.Run TestMalloc.init ops d) :
    ∃ s, histories.Reachable s ∧ Shows d s ∧ s.allocation_check.toNat = d.allocation_check := by
  have hinit : Shows TestMalloc.init ⟨fun _ => none, 0, false, []⟩ :=
    ⟨fun p => by simp [TestMalloc.init], rfl⟩
  obtain ⟨L, s, hrep, hshows, hreach⟩ := Shows.run hrun TestMalloc.rep_init hinit
    (System.reachable_init ⟨rfl, rfl⟩)
  exact ⟨s, hreach, hshows, hshows.count hrep (counted_of_reachable hreach)⟩

end Labs.Queue
