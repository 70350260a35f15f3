import SystemsLabs.Schemes.Buffer
import SystemsLabs.Schemes.Links
import SystemsLabs.Schemes.Memory
import SystemsLabs.Schemes.Transition

/-! @lab cprogramminglab | file:harness.c, report.c |
    structure:blocks with magic numbers in a doubly linked list |
    main results:the list is the live blocks, errors are exactly the spoiled blocks

    `test_malloc` puts a header before the payload and eight bytes behind it, of which it marks four.
    The live blocks are in a list, newest first. `test_free` looks the block up in the list, looks at
    both marks, reports what is wrong and goes on; a block it does not know it uses all the same. The
    answers of `malloc` are parameters, and so is whether `fail_allocation` strikes. A report above the
    verbosity is not made at all: with a negative one not even a fatal report ends the process. No log
    file is open. -/

namespace Labs.TestMalloc
open Schemes

def MAGICHEADER : ℕ := 0xdeadbeef

def MAGICFOOTER : ℕ := 0xbeefdead

def FILLCHAR : UInt8 := 0x55

/-- `sizeof(block_ele_t)` -/
def HEADER : ℕ := 32

/-- `magic_footer`, an `int`. -/
def magic_footer : List UInt8 := Memory.toBytes 4 MAGICFOOTER

/-- `block_ele_t`; `bytes` is the payload and the eight bytes behind it. -/
structure BlockEle where
  next : ℕ
  prev : ℕ
  payload_size : ℕ
  magic_header : ℕ
  bytes : List UInt8

/-- `message_t`, but for `MSG_FATAL`. -/
inductive Message where
  | warn
  | error

def Message.level : Message → ℤ
  | .warn => 2
  | .error => 1

/-- What `report_event` has printed, with the address it is about. -/
structure Report where
  msg : Message
  fmt : String
  address : Option ℕ

structure Harness where
  heap : Heap ℕ BlockEle
  allocated : ℕ
  allocated_count : ℕ
  cautious_mode : Bool
  noallocate_mode : Bool
  error_occurred : Bool
  verblevel : ℤ
  reports : List Report

/-- The initial values. -/
def init : Harness where
  heap := fun _ => none
  allocated := 0
  allocated_count := 0
  cautious_mode := true
  noallocate_mode := false
  error_occurred := false
  verblevel := 0
  reports := []

/-- What a block is besides its links. -/
structure Entry where
  payload_size : ℕ
  magic_header : ℕ
  bytes : List UInt8

def BlockEle.view (x : BlockEle) : ℕ × Entry × ℕ :=
  (x.prev, ⟨x.payload_size, x.magic_header, x.bytes⟩, x.next)

def links : Links BlockEle.view where
  setPrev m x := { x with prev := m }
  setNext n x := { x with next := n }
  view_setPrev _ _ := rfl
  view_setNext _ _ := rfl

namespace Harness
variable (s : Harness)

/-- `report_event` of a warning or an error. -/
def report_event (msg : Message) (fmt : String) (address : Option ℕ) : Harness :=
  if s.verblevel < msg.level then s else { s with reports := s.reports ++ [⟨msg, fmt, address⟩] }

/-- `report_event(MSG_FATAL, ..)`, which goes on if it prints nothing. -/
def report_fatal : Except Stop Harness := if s.verblevel < 0 then .ok s else .error .exit

/-- A report of an error about `p`, which is remembered. -/
def error (fmt : String) (p : ℕ) : Harness :=
  { s.report_event .error fmt (some p) with error_occurred := true }

/-- What a new block holds, with what `malloc` left in the last four bytes. -/
def fresh (size : ℕ) (junk : Buffer 4) : Entry :=
  ⟨size, MAGICHEADER, List.replicate size FILLCHAR ++ magic_footer ++ junk.bytes⟩

/-- The address of a live block is no answer of `malloc`, and counts as `NULL`. A size near `2^64` wraps,
    and the header or the footer is outside of the block then. -/
def test_malloc (fails : Bool) (answer : ℕ) (junk : Buffer 4) (size : ℕ) :
    Except Stop (Harness × ℕ) :=
  if s.noallocate_mode then do
    let s ← s.report_fatal
    .ok (s, 0)
  else if fails then .ok (s.report_event .warn "Malloc returning NULL" none, 0)
  else if answer = 0 ∨ (s.heap answer).isSome then do
    let s ← s.report_fatal
    .ok ({ s with error_occurred := true }, 0)
  else if 2 ^ 64 ≤ answer + (size + HEADER + 8) then .error .fault
  else do
    let x := fresh size junk
    let heap ← pushFront links 0 s.heap s.allocated answer ⟨0, 0, x.payload_size, x.magic_header, x.bytes⟩
    .ok ({ s with
      heap := heap, allocated := answer, allocated_count := s.allocated_count + 1 }, answer + HEADER)

/-- The block before a payload. -/
def header (p : ℕ) : ℕ := if HEADER ≤ p then p - HEADER else p + 2 ^ 64 - HEADER

/-- The search of `find_header`. -/
def searchLoop (heap : Heap ℕ BlockEle) (b : ℕ) : ℕ → ℕ → Bool → Except Stop Bool
  | 0, _, _ => .error .fuel
  | k + 1, ab, found =>
    if ab = 0 ∨ found then .ok found
    else do
      let x ← heap.get ab
      searchLoop heap b k x.next (ab = b)

/-- The first part of `find_header`, in cautious mode. -/
def checkAllocated (fuel p : ℕ) : Except Stop Harness :=
  if s.cautious_mode then do
    let found ← searchLoop s.heap (header p) fuel s.allocated false
    .ok (if found then s else s.error "Attempted to free unallocated block.  Address = %p" p)
  else .ok s

def find_header (fuel p : ℕ) : Except Stop (Harness × BlockEle) := do
  let s := if p = 0 then s.error "Attempting to free null block" p else s
  let s ← s.checkAllocated fuel p
  let x ← s.heap.get (header p)
  .ok (if x.magic_header ≠ MAGICHEADER then
      s.error "Attempted to free unallocated or corrupted block.  Address = %p" p
    else s, x)

/-- What stands where the footer was. -/
def find_footer (x : BlockEle) : List UInt8 := (x.bytes.drop x.payload_size).take 4

/-- What is written into the block is gone with it. -/
def test_free (fuel p : ℕ) : Except Stop Harness :=
  if s.noallocate_mode then s.report_fatal
  else if p = 0 then .ok s
  else do
    let (s, x) ← s.find_header fuel p
    let s := if find_footer x ≠ magic_footer then
        s.error "Corruption detected in block with address %p when attempting to free it" p
      else s
    let (heap, allocated) ← bypass links 0 s.heap s.allocated x.prev x.next
    .ok { s with
      heap := heap.del (header p), allocated := allocated, allocated_count := s.allocated_count - 1 }

def allocation_check : ℕ := s.allocated_count

def error_check : Bool × Harness := (s.error_occurred, { s with error_occurred := false })

/-- The program changes a block. -/
def change (p : ℕ) (f : BlockEle → BlockEle) : Except Stop Harness := do
  let x ← s.heap.get (header p)
  .ok { s with heap := s.heap.put (header p) (f x) }

def test_calloc (fails : Bool) (answer : ℕ) (junk : Buffer 4) (num size : ℕ) :
    Except Stop (Harness × ℕ) := do
  let n := num * size % 2 ^ 64
  let (s, mem) ← s.test_malloc fails answer junk n
  if mem = 0 then .ok (s, mem)
  else do
    let s ← s.change mem fun x => { x with bytes := List.replicate n 0 ++ x.bytes.drop n }
    .ok (s, mem)

end Harness

end Labs.TestMalloc
