import Mathlib.Algebra.Order.Ring.Nat
import Mathlib.Data.Set.Lattice
import Mathlib.Order.CompletePartialOrder
import Mathlib.Order.Interval.Set.Defs
import SystemsLabs.Schemes.Heap
import SystemsLabs.Schemes.Memory
import SystemsLabs.Schemes.Transition

/-! @lab malloclab | file:mm-naive.c | structure:bump allocator | scheme:memory, transition

    A block is a 16-byte header, whose first word is the block's size, and its payload; the next one
    starts where `mem_sbrk` moved the break to, and `free` does nothing. Sizes are `size_t`: every sum
    and product wraps at `2^64`, and `mem_sbrk` takes its increment as a signed number. Of `mem_sbrk`
    only what memlib.h promises is used: it returns the old break and moves it up, or refuses;
    `granted` says whether it has the memory. Memory is flat, and a store beyond the break goes
    through; `memset` and `memcpy` fault at `NULL`, beyond the address space, and on ranges that
    overlap. -/

namespace Labs.Malloc
open Schemes

def NULL : ℕ := 0

def WSIZE : ℕ := 8

def ALIGNMENT : ℕ := 2 * WSIZE

/-- `offsetof(block_t, payload)`. -/
def HEADER_SIZE : ℕ := 16

/-- A `size_t` result. -/
def wrap (n : ℕ) : ℕ := n % 2 ^ 64

/-- A `size_t` passed as `intptr_t`. -/
def toSigned (n : ℕ) : ℤ := if n < 2 ^ 63 then n else n - 2 ^ 64

def roundup (size multiple : ℕ) : ℕ := wrap (multiple * (wrap (size + multiple - 1) / multiple))

def payload_to_header (bp : ℕ) : ℕ := bp - HEADER_SIZE

def header_to_payload (block : ℕ) : ℕ := block + HEADER_SIZE

/-- The addresses that the heap may grow over. -/
structure Arena where
  base : ℕ
  limit : ℕ
  aligned : ALIGNMENT ∣ base
  nonnull : 0 < base
  le : base ≤ limit
  bound : limit < 2 ^ 64

/-- The break and the bytes. -/
structure Store where
  brk : ℕ
  mem : Memory

/-- `mem_sbrk`; `none` is `(void *)-1`. -/
def mem_sbrk (A : Arena) (granted : Bool) (s : Store) (incr : ℤ) : Option (ℕ × Store) :=
  if granted ∧ 0 ≤ incr ∧ s.brk + incr ≤ A.limit then
    some (s.brk, { s with brk := s.brk + incr.toNat })
  else none

def malloc (A : Arena) (granted : Bool) (s : Store) (size : ℕ) : Store × ℕ :=
  let newsize := roundup (wrap (size + HEADER_SIZE)) ALIGNMENT
  match mem_sbrk A granted s (toSigned newsize) with
  | none => (s, NULL)
  | some (block, s) => ({ s with mem := s.mem.storeWord block newsize }, header_to_payload block)

def free (s : Store) (_ptr : ℕ) : Store := s

/-- An access to `n` bytes. -/
def touch (a n : ℕ) : Except Stop Unit :=
  if 0 < n ∧ (a = NULL ∨ 2 ^ 64 < a + n) then .error .fault else .ok ()

def memset (mem : Memory) (a : ℕ) (c : UInt8) (n : ℕ) : Except Stop Memory := do
  touch a n
  return mem.memset a c n

def memcpy (mem : Memory) (dst src : ℕ) (n : ℕ) : Except Stop Memory := do
  touch dst n
  touch src n
  if src < dst + n ∧ dst < src + n then .error .fault
  else return mem.memcpy dst src n

def realloc (A : Arena) (granted : Bool) (s : Store) (oldptr : ℕ) (size : ℕ) :
    Except Stop (Store × ℕ) :=
  if size = 0 then .ok (free s oldptr, NULL)
  else if oldptr = NULL then .ok (malloc A granted s size)
  else
    let (s, newptr) := malloc A granted s size
    if newptr = NULL then .ok (s, NULL)
    else do
      let block := payload_to_header oldptr
      let copysize := s.mem.loadWord block
      let copysize := if size < copysize then size else copysize
      let mem ← memcpy s.mem newptr oldptr copysize
      return (free { s with mem := mem } oldptr, newptr)

def calloc (A : Arena) (granted : Bool) (s : Store) (nmemb size : ℕ) : Except Stop (Store × ℕ) :=
  let bytes := wrap (nmemb * size)
  let (s, newptr) := malloc A granted s bytes
  do
    let mem ← memset s.mem newptr 0 bytes
    return ({ s with mem := mem }, newptr)

/-! ### The client -/

/-- A block that was returned: where its header is, what was requested, what its header says. -/
structure Block where
  addr : ℕ
  size : ℕ
  total : ℕ
  deriving DecidableEq, Repr

def Block.ptr (b : Block) : ℕ := header_to_payload b.addr

/-- The allocator and, latest first, the blocks returned so far. -/
structure Mm where
  store : Store
  blocks : List Block

/-- What a client does: a call, or a store into the payload of a block. -/
inductive Call where
  | malloc (size : ℕ)
  | calloc (nmemb size : ℕ)
  | realloc (oldptr : ℕ) (size : ℕ)
  | free (ptr : ℕ)
  | put (ptr : ℕ) (i : ℕ) (byte : UInt8)
  deriving DecidableEq

def Call.run (A : Arena) (granted : Bool) (s : Store) : Call → Except Stop (Store × ℕ)
  | .malloc size => .ok (Malloc.malloc A granted s size)
  | .calloc nmemb size => Malloc.calloc A granted s nmemb size
  | .realloc oldptr size => Malloc.realloc A granted s oldptr size
  | .free ptr => .ok (Malloc.free s ptr, NULL)
  | .put ptr i byte => .ok ({ s with mem := s.mem.write (ptr + i) [byte] }, NULL)

/-- The bytes that the caller asks for. -/
def Call.requested : Call → ℕ
  | .malloc size => size
  | .calloc nmemb size => nmemb * size
  | .realloc _ size => size
  | _ => 0

/-- Sizes are `size_t`, pointers come from the allocator, a store stays in the payload. -/
def Call.Legal (blocks : List Block) : Call → Prop
  | .malloc size => size < 2 ^ 64
  | .calloc nmemb size => nmemb < 2 ^ 64 ∧ size < 2 ^ 64
  | .realloc oldptr size => size < 2 ^ 64 ∧ (oldptr = NULL ∨ ∃ b ∈ blocks, b.ptr = oldptr)
  | .free ptr => ptr = NULL ∨ ∃ b ∈ blocks, b.ptr = ptr
  | .put ptr i _ => ∃ b ∈ blocks, b.ptr = ptr ∧ i < b.size

/-- The state after a call that returns `p`. -/
def Mm.after (s : Mm) (call : Call) (store : Store) (p : ℕ) : Mm where
  store := store
  blocks :=
    if p = NULL then s.blocks
    else
      let block := payload_to_header p
      ⟨block, call.requested, store.mem.loadWord block⟩ :: s.blocks

/-- Any client on an empty heap. -/
def allocator (A : Arena) : System Mm (Call × Bool) where
  init s := s.store.brk = A.base ∧ s.blocks = []
  step s a s' := a.1.Legal s.blocks ∧
    ∃ store p, a.1.run A a.2 s.store = .ok (store, p) ∧ s' = s.after a.1 store p

/-- What a result that is not `NULL` owes to the caller. -/
structure Serves (A : Arena) (s : Mm) (call : Call) (store : Store) (p : ℕ) : Prop where
  aligned : ALIGNMENT ∣ p
  inside : A.base ≤ p ∧ p + call.requested ≤ store.brk
  /-- The payload meets no header and no payload of another block. -/
  apart : ∀ b ∈ s.blocks,
    Disjoint (Set.Ico p (p + call.requested)) (Set.Ico b.addr (b.ptr + b.size))
  zero : ∀ nmemb size, call = .calloc nmemb size → ∀ i < nmemb * size, store.mem (p + i) = 0
  kept : ∀ b ∈ s.blocks, ∀ size, call = .realloc b.ptr size → ∀ i < min b.size size,
    store.mem (p + i) = s.store.mem (b.ptr + i)

end Labs.Malloc
