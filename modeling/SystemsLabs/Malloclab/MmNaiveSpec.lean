import Mathlib.Algebra.Ring.Nat
import Mathlib.Data.List.Pairwise
import SystemsLabs.Malloclab.MmNaive

/-! @lab malloclab | file:mm-naive.c | scheme:memory, transition | main result:when a result is what
    was asked for

    The blocks lie one behind the other, each header holds its block's size, and that size has room
    for header and payload: this is kept by every call whose request fits into a `size_t` with its
    header after rounding. A request above `2^64 - 32` wraps to a block of 0 or 16 bytes, and then
    no result can be right. -/

namespace Labs.Malloc
open Schemes

/-- The largest request that `malloc` rounds up without a wrap. -/
def MAX_REQUEST : ℕ := 2 ^ 64 - 32

/-- A request that does not wrap, or that `mem_sbrk` refuses. -/
def Sized (_ : Mm) (a : Call × Bool) : Prop := a.1.requested ≤ MAX_REQUEST ∨ a.2 = false

/-- A block below the break with room for its payload, and its header as it was written. -/
structure BlockOk (A : Arena) (s : Store) (b : Block) : Prop where
  aligned : ALIGNMENT ∣ b.addr
  base : A.base ≤ b.addr
  room : HEADER_SIZE + b.size ≤ b.total
  below : b.addr + b.total ≤ s.brk
  header : s.mem.loadWord b.addr = b.total

structure HeapOk (A : Arena) (s : Mm) : Prop where
  aligned : ALIGNMENT ∣ s.store.brk
  base : A.base ≤ s.store.brk
  limit : s.store.brk ≤ A.limit
  block : ∀ b ∈ s.blocks, BlockOk A s.store b
  order : s.blocks.Pairwise fun b c => c.addr + c.total ≤ b.addr

/-- Two blocks are one, or one lies behind the other. -/
def Block.Apart (b c : Block) : Prop :=
  b = c ∨ b.addr + b.total ≤ c.addr ∨ c.addr + c.total ≤ b.addr

instance : Std.Symm Block.Apart where
  symm _ _ h := h.imp Eq.symm Or.symm

theorem Block.apart_self (b : Block) : b.Apart b := Or.inl rfl

theorem Block.header_ptr (b : Block) : payload_to_header b.ptr = b.addr :=
  Nat.add_sub_cancel ..

section Spec
variable {A : Arena} {granted : Bool} {s s' : Mm} {st st' : Store} {call : Call} {p : ℕ}
  {size n : ℕ}

/-! ### Sizes -/

/-- A request that does not wrap gets the least multiple of 16 that holds it and its header. -/
theorem roundup_fits (h : size ≤ MAX_REQUEST) :
    ALIGNMENT ∣ roundup (wrap (size + HEADER_SIZE)) ALIGNMENT ∧
      HEADER_SIZE + size ≤ roundup (wrap (size + HEADER_SIZE)) ALIGNMENT ∧
      roundup (wrap (size + HEADER_SIZE)) ALIGNMENT < 2 ^ 64 := by
  simp only [MAX_REQUEST, roundup, wrap, HEADER_SIZE, ALIGNMENT, WSIZE] at *
  omega

theorem roundup_lt : roundup size n < 2 ^ 64 := Nat.mod_lt _ (by decide)

/-- A `size_t` that is not negative as `intptr_t` is the same number. -/
theorem toSigned_nonneg (hn : n < 2 ^ 64) (h : 0 ≤ toSigned n) : toSigned n = n := by
  unfold toSigned at *
  split at h
  · rename_i hlt
    rw [if_pos hlt]
  · omega

/-- `mem_sbrk` refuses, or moves the break up. -/
theorem mem_sbrk_cases (A : Arena) (granted : Bool) (st : Store) (hn : n < 2 ^ 64) :
    mem_sbrk A granted st (toSigned n) = none ∨ granted = true ∧ st.brk + n ≤ A.limit ∧
      mem_sbrk A granted st (toSigned n) = some (st.brk, { st with brk := st.brk + n }) := by
  rw [mem_sbrk]
  split
  · rename_i h
    obtain ⟨hgranted, hnonneg, hle⟩ := h
    rw [toSigned_nonneg hn hnonneg] at hle ⊢
    exact Or.inr ⟨hgranted, by omega, rfl⟩
  · exact Or.inl rfl

/-- `malloc` refuses, or returns the old break plus a header and moves the break. -/
theorem malloc_cases (A : Arena) (granted : Bool) (st : Store) (size : ℕ) :
    malloc A granted st size = (st, NULL) ∨
    ∃ N, N = roundup (wrap (size + HEADER_SIZE)) ALIGNMENT ∧ granted = true ∧
      st.brk + N ≤ A.limit ∧
      malloc A granted st size = (⟨st.brk + N, st.mem.storeWord st.brk N⟩, st.brk + HEADER_SIZE) := by
  have hN : roundup (wrap (size + HEADER_SIZE)) ALIGNMENT < 2 ^ 64 := roundup_lt
  rcases mem_sbrk_cases A granted st hN with heq | ⟨hgranted, hle, heq⟩
  · exact Or.inl (by simp only [malloc, heq])
  · exact Or.inr ⟨_, rfl, hgranted, hle, by simp only [malloc, heq]; rfl⟩

theorem ne_null {a : ℕ} : a + HEADER_SIZE ≠ NULL := by
  simp [NULL, HEADER_SIZE]

/-- What every call that returns a block does: it takes the old break for the header and moves the
    break by the rounded size, writes nothing below, and leaves that size in the header. -/
structure Grown (A : Arena) (st : Store) (size : ℕ) (st' : Store) (N : ℕ) : Prop where
  rounded : N = roundup (wrap (size + HEADER_SIZE)) ALIGNMENT
  limit : st.brk + N ≤ A.limit
  brk : st'.brk = st.brk + N
  below : ∀ x < st.brk, st'.mem x = st.mem x
  header : st'.mem.loadWord st.brk = N

theorem malloc_grown (h : malloc A granted st size = (st', p)) (hp : p ≠ NULL) :
    ∃ N, Grown A st size st' N ∧ granted = true ∧ p = st.brk + HEADER_SIZE ∧
      st'.mem = st.mem.storeWord st.brk N := by
  rcases malloc_cases A granted st size with heq | ⟨N, hN, hgranted, hle, heq⟩
  · obtain ⟨-, rfl⟩ := Prod.mk.inj (h.symm.trans heq)
    exact absurd rfl hp
  · obtain ⟨rfl, rfl⟩ := Prod.mk.inj (h.symm.trans heq)
    refine ⟨N, ⟨hN, hle, rfl, fun x hx => ?_, ?_⟩, hgranted, rfl, rfl⟩
    · exact Memory.storeWord_out (Or.inl hx)
    · exact Memory.loadWord_storeWord (hN ▸ roundup_lt)

/-- A store into the payload of the new block. -/
theorem Grown.fill {N : ℕ} {mem : Memory} (h : Grown A st size st' N)
    (hmem : ∀ x < st.brk + HEADER_SIZE, mem x = st'.mem x) :
    Grown A st size { st' with mem := mem } N where
  rounded := h.rounded
  limit := h.limit
  brk := h.brk
  below x hx := (hmem x (Nat.lt_add_right _ hx)).trans (h.below x hx)
  header := by
    refine (Memory.loadWord_congr fun i hi => hmem _ ?_).trans h.header
    simp only [Memory.WORD, HEADER_SIZE] at *
    omega

/-! ### The heap -/

theorem BlockOk.grown {N : ℕ} {b : Block} (hb : BlockOk A st b) (h : Grown A st size st' N) :
    BlockOk A st' b where
  aligned := hb.aligned
  base := hb.base
  room := hb.room
  below := by
    have := hb.below
    rw [h.brk]
    omega
  header := by
    refine (Memory.loadWord_congr fun i hi => h.below _ ?_).trans hb.header
    have hroom := hb.room
    have hbelow := hb.below
    simp only [Memory.WORD, HEADER_SIZE] at *
    omega

/-- A new block behind the others. -/
theorem HeapOk.push {N : ℕ} (hs : HeapOk A s) (h : Grown A s.store size st N)
    (hsize : size ≤ MAX_REQUEST) (hn : n = size) :
    HeapOk A ⟨st, ⟨s.store.brk, n, N⟩ :: s.blocks⟩ := by
  obtain ⟨hdvd, hroom, -⟩ := roundup_fits hsize
  rw [← h.rounded] at hdvd hroom
  have hblocks : ∀ b ∈ s.blocks, b.addr + b.total ≤ s.store.brk := fun b hb => (hs.block b hb).below
  refine ⟨?_, ?_, ?_, ?_, List.pairwise_cons.mpr ⟨hblocks, hs.order⟩⟩
  · rw [h.brk]
    exact Nat.dvd_add hs.aligned hdvd
  · have := hs.base
    rw [h.brk]
    omega
  · rw [h.brk]
    exact h.limit
  · rintro b hb
    rcases List.mem_cons.mp hb with rfl | hb
    · exact ⟨hs.aligned, hs.base, hn ▸ hroom, h.brk.ge, h.header⟩
    · exact (hs.block b hb).grown h

theorem HeapOk.apart (hs : HeapOk A s) {b c : Block} (hb : b ∈ s.blocks) (hc : c ∈ s.blocks) :
    b.Apart c := by
  have hall : s.blocks.Pairwise Block.Apart := hs.order.imp fun h => Or.inr (Or.inr h)
  exact hall.forall_of_forall (fun b _ => b.apart_self) hb hc

/-- A store into a payload keeps the headers. -/
theorem HeapOk.put (hs : HeapOk A s) {b : Block} (hb : b ∈ s.blocks) {i : ℕ} (hi : i < b.size)
    (byte : UInt8) :
    HeapOk A ⟨{ s.store with mem := s.store.mem.write (b.ptr + i) [byte] }, s.blocks⟩ := by
  have hroom := (hs.block b hb).room
  refine ⟨hs.aligned, hs.base, hs.limit, fun c hc => ?_, hs.order⟩
  have hcok := hs.block c hc
  refine ⟨hcok.aligned, hcok.base, hcok.room, hcok.below, ?_⟩
  refine (Memory.loadWord_congr fun j hj => Memory.write_out ?_).trans hcok.header
  have hcroom := hcok.room
  simp only [Block.ptr, header_to_payload, Memory.WORD, HEADER_SIZE, List.length_singleton] at *
  rcases hs.apart hb hc with rfl | h | h
  · omega
  · omega
  · omega

/-! ### Results -/

/-- Whatever is returned lies behind all blocks; a request that does not wrap fits below the break. -/
theorem HeapOk.serves (hs : HeapOk A s) {N : ℕ} (h : Grown A s.store size st N)
    (hsize : size ≤ MAX_REQUEST) (hreq : call.requested = size)
    (hzero : ∀ nmemb k, call = .calloc nmemb k → ∀ i < nmemb * k,
      st.mem (s.store.brk + HEADER_SIZE + i) = 0)
    (hkept : ∀ b ∈ s.blocks, ∀ k, call = .realloc b.ptr k → ∀ i < min b.size k,
      st.mem (s.store.brk + HEADER_SIZE + i) = s.store.mem (b.ptr + i)) :
    Serves A s call st (s.store.brk + HEADER_SIZE) := by
  obtain ⟨-, hroom, -⟩ := roundup_fits hsize
  rw [← h.rounded] at hroom
  have hbase := hs.base
  refine ⟨Nat.dvd_add hs.aligned (by decide), ⟨by omega, ?_⟩, fun b hb => ?_, hzero, hkept⟩
  · rw [h.brk, hreq]
    omega
  · have hb := hs.block b hb
    have hbroom := hb.room
    have hbelow := hb.below
    rw [Set.disjoint_left]
    intro x hx hx'
    simp only [Set.mem_Ico, Block.ptr, header_to_payload] at hx hx'
    omega

/-- A result that serves was not asked for more than `MAX_REQUEST` bytes. -/
theorem HeapOk.requested_le (hs : HeapOk A s) (h : Serves A s call st (s.store.brk + HEADER_SIZE))
    (hlimit : st.brk ≤ A.limit) : call.requested ≤ MAX_REQUEST := by
  have hinside := h.inside.2
  have hbase := hs.base
  have hbound := A.bound
  have hpos := A.nonnull
  obtain ⟨k, hk⟩ := A.aligned
  simp only [MAX_REQUEST, HEADER_SIZE, ALIGNMENT, WSIZE] at *
  omega

/-- What a call that returns a block comes to: the request taken as a `size_t`, memory filled in
    behind the header only, zeros from `calloc`, the old bytes from `realloc`. -/
structure Returned (A : Arena) (s : Mm) (call : Call) (st : Store) (p N : ℕ) : Prop where
  grown : Grown A s.store (wrap call.requested) st N
  ptr : p = s.store.brk + HEADER_SIZE
  zero : ∀ nmemb k, call = .calloc nmemb k → ∀ i < wrap (nmemb * k), st.mem (p + i) = 0
  kept : ∀ b ∈ s.blocks, ∀ k, call = .realloc b.ptr k → ∀ i < min b.size k,
    st.mem (p + i) = s.store.mem (b.ptr + i)

theorem wrap_of_lt (h : n < 2 ^ 64) : wrap n = n := Nat.mod_eq_of_lt h

theorem memset_ok {mem mem' : Memory} {a : ℕ} {c : UInt8} (h : memset mem a c n = .ok mem') :
    mem' = mem.memset a c n := by
  obtain ⟨-, -, h⟩ := bind_ok h
  exact (Except.ok.inj h).symm

theorem memcpy_ok {mem mem' : Memory} {dst src : ℕ} (h : memcpy mem dst src n = .ok mem') :
    mem' = mem.memcpy dst src n := by
  obtain ⟨-, -, h⟩ := bind_ok h
  obtain ⟨-, -, h⟩ := bind_ok h
  split at h
  · cases h
  · exact (Except.ok.inj h).symm

theorem calloc_returned {nmemb : ℕ}
    (h : calloc A granted s.store nmemb size = .ok (st, p)) (hp : p ≠ NULL) :
    ∃ N, Returned A s (.calloc nmemb size) st p N ∧ granted = true := by
  rw [calloc] at h
  obtain ⟨mem, hset, hret⟩ := bind_ok h
  obtain ⟨rfl, rfl⟩ := Prod.mk.inj (Except.ok.inj hret)
  obtain ⟨N, hgrown, hgranted, hptr, -⟩ := malloc_grown (Prod.mk.eta.symm) hp
  obtain rfl := memset_ok hset
  refine ⟨N, ⟨hgrown.fill fun x hx => Memory.memset_out (Or.inl (hptr ▸ hx)), hptr, ?_, nofun⟩,
    hgranted⟩
  rintro nmemb' k ⟨⟩ i hi
  exact Memory.memset_in hi

/-- The copy of `realloc`: the count is the new size, or the old total where that is smaller. -/
theorem HeapOk.copied (hs : HeapOk A s) {N dst k i : ℕ} (h : Grown A s.store k st N) {b : Block}
    (hb : b ∈ s.blocks) (hi : i < min b.size size) :
    st.mem.memcpy dst b.ptr (if size < st.mem.loadWord (payload_to_header b.ptr) then size
      else st.mem.loadWord (payload_to_header b.ptr)) (dst + i) = s.store.mem (b.ptr + i) := by
  have hbok := hs.block b hb
  have hroom := hbok.room
  have hbelow := hbok.below
  have htotal : st.mem.loadWord (payload_to_header b.ptr) = b.total := by
    rw [b.header_ptr]
    exact (hbok.grown h).header
  have hcount : i < if size < b.total then size else b.total := by
    split
    · omega
    · omega
  rw [htotal]
  refine (Memory.memcpy_in hcount).trans (h.below _ ?_)
  simp only [Block.ptr, header_to_payload]
  omega

theorem realloc_returned (hs : HeapOk A s) {oldptr : ℕ} (hlt : size < 2 ^ 64)
    (h : realloc A granted s.store oldptr size = .ok (st, p)) (hp : p ≠ NULL) :
    ∃ N, Returned A s (.realloc oldptr size) st p N ∧ granted = true := by
  rw [realloc] at h
  split at h
  · obtain ⟨-, rfl⟩ := Prod.mk.inj (Except.ok.inj h)
    exact absurd rfl hp
  · split at h
    · -- `malloc`: no block is at `NULL`
      rename_i hnull
      obtain ⟨N, hgrown, hgranted, rfl, -⟩ := malloc_grown (Except.ok.inj h) hp
      refine ⟨N, ⟨(wrap_of_lt hlt).symm ▸ hgrown, rfl, nofun, ?_⟩, hgranted⟩
      rintro b hb k heq
      obtain ⟨hptr, -⟩ := Call.realloc.inj heq
      exact absurd (hptr.symm.trans hnull) ne_null
    · cases hm : malloc A granted s.store size with
      | mk st₁ newptr =>
        simp only [hm] at h
        split at h
        · obtain ⟨-, rfl⟩ := Prod.mk.inj (Except.ok.inj h)
          exact absurd rfl hp
        · rename_i hnew
          obtain ⟨mem, hcopy, hret⟩ := bind_ok h
          obtain ⟨rfl, rfl⟩ := Prod.mk.inj (Except.ok.inj hret)
          obtain ⟨N, hgrown, hgranted, rfl, -⟩ := malloc_grown hm hnew
          obtain rfl := memcpy_ok hcopy
          refine ⟨N, ⟨(wrap_of_lt hlt).symm ▸ hgrown.fill fun x hx => Memory.memcpy_out (Or.inl hx),
            rfl, nofun, ?_⟩, hgranted⟩
          rintro b hb k heq i hi
          obtain ⟨rfl, rfl⟩ := Call.realloc.inj heq
          exact hs.copied hgrown hb hi

theorem returned_of_run (hs : HeapOk A s) (hlegal : call.Legal s.blocks)
    (h : call.run A granted s.store = .ok (st, p)) (hp : p ≠ NULL) :
    ∃ N, Returned A s call st p N ∧ granted = true := by
  cases call with
  | malloc size =>
    obtain ⟨N, hgrown, hgranted, rfl, -⟩ := malloc_grown (Except.ok.inj h) hp
    exact ⟨N, ⟨(wrap_of_lt hlegal).symm ▸ hgrown, rfl, nofun, nofun⟩, hgranted⟩
  | calloc nmemb size => exact calloc_returned h hp
  | realloc oldptr size => exact realloc_returned hs hlegal.1 h hp
  | free ptr =>
    obtain ⟨-, rfl⟩ := Prod.mk.inj (Except.ok.inj h)
    exact absurd rfl hp
  | put ptr i byte =>
    obtain ⟨-, rfl⟩ := Prod.mk.inj (Except.ok.inj h)
    exact absurd rfl hp

theorem malloc_null {s : Store} (h : malloc A granted s size = (st, NULL)) : st = s := by
  rcases malloc_cases A granted s size with heq | ⟨N, -, -, -, heq⟩
  · exact (Prod.mk.inj (h.symm.trans heq)).1
  · exact absurd (Prod.mk.inj (h.symm.trans heq)).2.symm ne_null

/-- `memset` at `NULL` faults unless it has nothing to write. -/
theorem memset_null {mem mem' : Memory} {c : UInt8} (h : memset mem NULL c n = .ok mem') :
    mem' = mem := by
  have hzero : n = 0 := by
    obtain ⟨⟨⟩, htouch, -⟩ := bind_ok h
    unfold touch at htouch
    split at htouch
    · cases htouch
    · rename_i hgood
      simpa using hgood
  rw [memset_ok h, hzero]
  funext x
  exact Memory.memset_out (by omega)

theorem calloc_null {s : Store} {nmemb : ℕ} (h : calloc A granted s nmemb size = .ok (st, NULL)) :
    st = s := by
  rw [calloc] at h
  cases hm : malloc A granted s (wrap (nmemb * size)) with
  | mk st₁ newptr =>
    simp only [hm] at h
    obtain ⟨mem, hset, hret⟩ := bind_ok h
    obtain ⟨rfl, rfl⟩ := Prod.mk.inj (Except.ok.inj hret)
    obtain rfl := malloc_null hm
    rw [memset_null hset]

theorem realloc_null {s : Store} {oldptr : ℕ}
    (h : realloc A granted s oldptr size = .ok (st, NULL)) : st = s := by
  rw [realloc] at h
  split at h
  · exact (Prod.mk.inj (Except.ok.inj h)).1.symm
  · split at h
    · exact malloc_null (Except.ok.inj h)
    · cases hm : malloc A granted s size with
      | mk st₁ newptr =>
        simp only [hm] at h
        split at h
        · rename_i hnull
          obtain ⟨rfl, -⟩ := Prod.mk.inj (Except.ok.inj h)
          exact malloc_null (hnull ▸ hm)
        · rename_i hnew
          obtain ⟨mem, -, hret⟩ := bind_ok h
          exact absurd (Prod.mk.inj (Except.ok.inj hret)).2 hnew

/-- The state of a call that returns no block is as before, a store into a payload apart. -/
theorem null_of_run (h : call.run A granted s.store = .ok (st, NULL)) :
    st = s.store ∨ ∃ ptr i byte, call = .put ptr i byte ∧
      st = { s.store with mem := s.store.mem.write (ptr + i) [byte] } := by
  cases call with
  | malloc size => exact Or.inl (malloc_null (Except.ok.inj h))
  | calloc nmemb size => exact Or.inl (calloc_null h)
  | realloc oldptr size => exact Or.inl (realloc_null h)
  | free ptr => exact Or.inl (Prod.mk.inj (Except.ok.inj h)).1.symm
  | put ptr i byte => exact Or.inr ⟨ptr, i, byte, rfl, (Prod.mk.inj (Except.ok.inj h)).1.symm⟩

theorem HeapOk.step (hs : HeapOk A s) (hlegal : call.Legal s.blocks)
    (hsized : Sized s (call, granted)) (h : call.run A granted s.store = .ok (st, p)) :
    HeapOk A (s.after call st p) := by
  rcases eq_or_ne p NULL with rfl | hp
  · have hafter : s.after call st NULL = ⟨st, s.blocks⟩ := by simp [Mm.after]
    rw [hafter]
    rcases null_of_run h with rfl | ⟨ptr, i, byte, rfl, rfl⟩
    · exact hs
    · obtain ⟨b, hb, rfl, hi⟩ := hlegal
      exact hs.put hb hi byte
  · obtain ⟨N, hret, rfl⟩ := returned_of_run hs hlegal h hp
    have hsize : call.requested ≤ MAX_REQUEST := hsized.resolve_right nofun
    have hgrown := hret.grown
    rw [wrap_of_lt (lt_of_le_of_lt hsize (by decide))] at hgrown
    have hblock : payload_to_header p = s.store.brk := by
      rw [hret.ptr]
      exact Nat.add_sub_cancel ..
    have hafter : s.after call st p = ⟨st, ⟨s.store.brk, call.requested, N⟩ :: s.blocks⟩ := by
      simp only [Mm.after, if_neg hp, hblock, hgrown.header]
    rw [hafter]
    exact hs.push hgrown hsize rfl

theorem heapOk_reachable (h : ((allocator A).restrict Sized).Reachable s) : HeapOk A s := by
  refine System.reachable_of_step (P := HeapOk A) ?_ ?_ h
  · rintro s ⟨hbrk, hblocks⟩
    refine ⟨hbrk ▸ A.aligned, hbrk.ge, hbrk ▸ A.le, ?_, ?_⟩
    · rw [hblocks]
      exact nofun
    · rw [hblocks]
      exact .nil
  · rintro s ⟨call, granted⟩ s' hs ⟨hsized, hlegal, st, p, hrun, rfl⟩
    exact hs.step hlegal hsized hrun

theorem HeapOk.serves_iff (hs : HeapOk A s) (hlegal : call.Legal s.blocks)
    (h : call.run A granted s.store = .ok (st, p)) (hp : p ≠ NULL) :
    Serves A s call st p ↔ call.requested ≤ MAX_REQUEST := by
  obtain ⟨N, hret, -⟩ := returned_of_run hs hlegal h hp
  obtain ⟨hgrown, rfl, hzero, hkept⟩ := hret
  refine ⟨fun hserves => hs.requested_le hserves (hgrown.brk ▸ hgrown.limit), fun hsize => ?_⟩
  have hwrap : wrap call.requested = call.requested :=
    wrap_of_lt (lt_of_le_of_lt hsize (by decide))
  rw [hwrap] at hgrown
  refine hs.serves hgrown hsize rfl ?_ hkept
  rintro nmemb k rfl i hi
  exact hzero nmemb k rfl i (hwrap.symm ▸ hi)

theorem touch_ok {a : ℕ} (ha : a ≠ NULL) (hle : a + n ≤ 2 ^ 64) : touch a n = .ok () := by
  rw [touch, if_neg]
  rintro ⟨-, hnull | hlt⟩
  · exact ha hnull
  · omega

theorem memcpy_returns {mem : Memory} {dst src : ℕ} (hdst : dst ≠ NULL) (hsrc : src ≠ NULL)
    (hle : dst + n ≤ 2 ^ 64) (hbehind : src + n ≤ dst) :
    memcpy mem dst src n = .ok (mem.memcpy dst src n) := by
  rw [memcpy, touch_ok hdst hle, ok_bind, touch_ok hsrc (by omega), ok_bind, if_neg (by omega)]
  rfl

/-- `realloc` never faults: the old bytes end where the new payload begins, at the latest. -/
theorem HeapOk.realloc_returns (hs : HeapOk A s) {oldptr : ℕ} (hsize : size ≤ MAX_REQUEST)
    (hold : oldptr = NULL ∨ ∃ b ∈ s.blocks, b.ptr = oldptr) :
    ∃ st p, realloc A granted s.store oldptr size = .ok (st, p) := by
  rw [realloc]
  split
  · exact ⟨_, _, rfl⟩
  · split
    · exact ⟨_, _, rfl⟩
    · rename_i hnonnull
      obtain ⟨b, hb, rfl⟩ := hold.resolve_left hnonnull
      cases hm : malloc A granted s.store size with
      | mk st₁ newptr =>
        simp only
        split
        · exact ⟨_, _, rfl⟩
        · rename_i hnew
          obtain ⟨N, hgrown, -, rfl, -⟩ := malloc_grown hm hnew
          obtain ⟨-, hfits, -⟩ := roundup_fits hsize
          rw [← hgrown.rounded] at hfits
          have hbok := hs.block b hb
          have hbelow := hbok.below
          have hlimit := hgrown.limit
          have hbound := A.bound
          have hptr : b.ptr = b.addr + HEADER_SIZE := rfl
          have hcount : (if size < b.total then size else b.total) ≤ size ∧
              (if size < b.total then size else b.total) ≤ b.total := by
            split
            · omega
            · omega
          rw [b.header_ptr, (hbok.grown hgrown).header,
            memcpy_returns hnew hnonnull (by omega) (by omega)]
          exact ⟨_, _, rfl⟩

end Spec

/-- In a run of requests that do not wrap (or that `mem_sbrk` refuses) every result serves its
    caller; and after any such run a result serves iff its request does not wrap. -/
theorem serves_iff_sized (A : Arena) :
    (∀ {s call granted st p}, ((allocator A).restrict Sized).Reachable s → call.Legal s.blocks →
      Sized s (call, granted) → call.run A granted s.store = .ok (st, p) → p ≠ NULL →
      Serves A s call st p) ∧
    ∀ {s call granted st p}, ((allocator A).restrict Sized).Reachable s → call.Legal s.blocks →
      call.run A granted s.store = .ok (st, p) → p ≠ NULL →
      (Serves A s call st p ↔ call.requested ≤ MAX_REQUEST) := by
  refine ⟨fun {s call granted st p} h hlegal hsized hrun hp => ?_,
    fun h hlegal hrun hp => (heapOk_reachable h).serves_iff hlegal hrun hp⟩
  have hs := heapOk_reachable h
  obtain ⟨N, -, rfl⟩ := returned_of_run hs hlegal hrun hp
  exact (hs.serves_iff hlegal hrun hp).mpr (hsized.resolve_right nofun)

/-! ### A request that wraps -/

def page : Arena := ⟨16, 4096, by decide, by decide, by decide, by decide⟩

def empty : Mm := ⟨⟨16, fun _ => 0⟩, []⟩

theorem empty_init : (allocator page).init empty := ⟨rfl, rfl⟩

/-- `malloc(1)` on an empty heap. -/
theorem serves_iff_sized_one : ∃ st, Serves page empty (.malloc 1) st 32 :=
  ⟨_, @(serves_iff_sized page).1 empty (.malloc 1) true _ _ (System.reachable_init empty_init)
    (show 1 < 2 ^ 64 by decide) (Or.inl (by decide)) rfl (by decide)⟩

/-- `malloc(2^64 - 15)` returns a block without payload. -/
theorem malloc_wraps : ¬ ∀ {s call granted st p}, (allocator page).Reachable s →
    call.Legal s.blocks → call.run page granted s.store = .ok (st, p) → p ≠ NULL →
    Serves page s call st p := by
  intro hserves
  have h := @hserves empty (.malloc (2 ^ 64 - 15)) true _ _ (System.reachable_init empty_init)
    (show 2 ^ 64 - 15 < 2 ^ 64 by decide) rfl (by decide)
  have hinside := h.inside.2
  revert hinside
  decide

end Labs.Malloc
