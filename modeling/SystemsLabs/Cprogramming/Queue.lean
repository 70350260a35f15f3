import SystemsLabs.Schemes.Heap
import Mathlib.Data.Int.Notation

/-! @lab cprogramming | file:queue.c | structure:singly linked list with head, tail and size

    The queue as the pointer program it is, over a heap of three kinds of blocks: the queue struct,
    list elements and character arrays. Pointers are 64-bit words, `NULL` is `0`, `size` is a
    `size_t`. A call takes what the allocator will answer: an address, where `NULL` and an address in
    use both count as a failed request. As in harness.c, memory comes filled with `FILLCHAR`, and a
    freed block is gone, so a read, write or free through a pointer to it is a `fault`. -/

namespace Labs.Queue
open Schemes

abbrev Ptr := BitVec 64

def NULL : Ptr := 0

/-- A C string: bytes without a terminator among them. -/
structure CString where
  bytes : List UInt8
  noNul : 0 ∉ bytes
  deriving DecidableEq

/-- `queue_t` -/
structure QueueT where
  head : Ptr
  tail : Ptr
  size : BitVec 64
  deriving DecidableEq, Repr

/-- `list_ele_t` -/
structure ListEle where
  value : Ptr
  next : Ptr
  deriving DecidableEq, Repr

inductive Block where
  | queue (q : QueueT)
  | ele (e : ListEle)
  | chars (bytes : List UInt8)
  deriving DecidableEq, Repr

abbrev Mem := Heap Ptr Block

/-! ### Memory accesses -/

def FILLCHAR : UInt8 := 0x55

def fillPtr : Ptr := 0x5555555555555555

/-- `malloc`: the block at the answered address, or `NULL` and nothing. -/
def malloc (h : Mem) (answer : Ptr) (x : Block) : Mem × Ptr :=
  if answer = NULL ∨ (h answer).isSome then (h, NULL) else (h.put answer x, answer)

def free (h : Mem) (p : Ptr) : Except Stop Mem :=
  if p = NULL then .ok h
  else if (h p).isSome then .ok (h.del p)
  else .error .fault

def getQueue (h : Mem) (p : Ptr) : Except Stop QueueT :=
  match h p with
  | some (.queue q) => .ok q
  | _ => .error .fault

def getEle (h : Mem) (p : Ptr) : Except Stop ListEle :=
  match h p with
  | some (.ele e) => .ok e
  | _ => .error .fault

def updQueue (h : Mem) (p : Ptr) (f : QueueT → QueueT) : Except Stop Mem := do
  let q ← getQueue h p
  return h.put p (.queue (f q))

def updEle (h : Mem) (p : Ptr) (f : ListEle → ListEle) : Except Stop Mem := do
  let e ← getEle h p
  return h.put p (.ele (f e))

def readChar (h : Mem) (p : Ptr) (i : ℕ) : Except Stop UInt8 :=
  match h p with
  | some (.chars bytes) =>
    match bytes[i]? with
    | some c => .ok c
    | none => .error .fault
  | _ => .error .fault

def writeChar (h : Mem) (p : Ptr) (i : ℕ) (c : UInt8) : Except Stop Mem :=
  match h p with
  | some (.chars bytes) =>
    if i < bytes.length then .ok (h.put p (.chars (bytes.set i c))) else .error .fault
  | _ => .error .fault

/-! ### The functions of queue.c -/

def q_new (h : Mem) (answer : Ptr) : Mem × Ptr :=
  malloc h answer (.queue ⟨NULL, NULL, 0⟩)

/-- Copy the characters of `s` from index `i` on; the string is the caller's. -/
def copyIn (h : Mem) (val : Ptr) : ℕ → List UInt8 → Except Stop Mem
  | _, [] => .ok h
  | i, c :: s => do
    let h ← writeChar h val i c
    copyIn h val (i + 1) s

/-- The first half of both insertions: allocate the element and its string, copy the string.
    `none`: out of space. -/
def newElement (h : Mem) (s : CString) (node val : Ptr) : Except Stop (Mem × Option Ptr) :=
  let (h, newh) := malloc h node (.ele ⟨fillPtr, fillPtr⟩)
  if newh = NULL then .ok (h, none)
  else
    let str := s.bytes.length + 1
    let (h, val) := malloc h val (.chars (List.replicate str FILLCHAR))
    if val = NULL then do
      let h ← free h newh
      return (h, none)
    else do
      let h ← copyIn h val 0 s.bytes
      let h ← writeChar h val (str - 1) 0
      let h ← updEle h newh fun e => { e with value := val }
      return (h, some newh)

def q_insert_head (h : Mem) (q : Ptr) (s : CString) (node val : Ptr) : Except Stop (Mem × Bool) :=
  if q = NULL then .ok (h, false)
  else do
    let (h, newh) ← newElement h s node val
    match newh with
    | none => return (h, false)
    | some newh => do
      let Q ← getQueue h q
      let h ← updEle h newh fun e => { e with next := Q.head }
      let h ← updQueue h q fun Q => { Q with head := newh, size := Q.size + 1 }
      let Q ← getQueue h q
      if Q.tail = NULL then do
        let h ← updQueue h q fun Q => { Q with tail := newh }
        return (h, true)
      else return (h, true)

def q_insert_tail (h : Mem) (q : Ptr) (s : CString) (node val : Ptr) : Except Stop (Mem × Bool) :=
  if q = NULL then .ok (h, false)
  else do
    let (h, ntail) ← newElement h s node val
    match ntail with
    | none => return (h, false)
    | some ntail => do
      let h ← updEle h ntail fun e => { e with next := NULL }
      let h ← updQueue h q fun Q => { Q with size := Q.size + 1 }
      let Q ← getQueue h q
      if Q.size = 1 then do
        let h ← updQueue h q fun Q => { Q with tail := ntail, head := ntail }
        return (h, true)
      else do
        let h ← updEle h Q.tail fun e => { e with next := ntail }
        let h ← updQueue h q fun Q => { Q with tail := ntail }
        return (h, true)

/-- The caller's memory from `sp` on. -/
abbrev Buffer := ℕ → UInt8

/-- Copy at most `limit` characters of the string to `sp`, and terminate it. -/
def copyOut (h : Mem) (str : Ptr) (limit : ℕ) : ℕ → ℕ → Buffer → Except Stop Buffer
  | 0, _, _ => .error .fuel
  | n + 1, index, sp =>
    if index < limit then do
      let c ← readChar h str index
      if c ≠ 0 then copyOut h str limit n (index + 1) (Function.update sp index c)
      else return Function.update sp index 0
    else return Function.update sp index 0

/-- `sp` is `NULL` or the buffer. -/
def q_remove_head (fuel : ℕ) (h : Mem) (q : Ptr) (sp : Option Buffer) (bufsize : BitVec 64) :
    Except Stop (Mem × Bool × Option Buffer) :=
  if q = NULL then .ok (h, false, sp)
  else do
    let Q ← getQueue h q
    if Q.head = NULL then return (h, false, sp)
    else do
      let head := Q.head
      let e ← getEle h head
      let h ← updQueue h q fun Q => { Q with head := e.next, size := Q.size - 1 }
      let sp ← match sp with
        | none => pure none
        | some sp => do
          let sp ← copyOut h e.value (bufsize - 1).toNat fuel 0 sp
          pure (some sp)
      let e ← getEle h head
      let h ← free h e.value
      let h ← free h head
      return (h, true, sp)

/-- The `int` conversion keeps the low 32 bits. -/
def q_size (h : Mem) (q : Ptr) : Except Stop ℤ :=
  if q = NULL then .ok 0
  else do
    let Q ← getQueue h q
    return (Q.size.setWidth 32).toInt

/-- Place the elements from `temp` to `end` behind the old tail, each in front of the last. -/
def reverseLoop (end_ : Ptr) : ℕ → Mem → Ptr → Except Stop (Mem × Ptr)
  | 0, _, _ => .error .fuel
  | n + 1, h, temp =>
    if temp = end_ then .ok (h, temp)
    else do
      let e ← getEle h end_
      let prev := e.next
      let h ← updEle h end_ fun e => { e with next := temp }
      let t ← getEle h temp
      let head := t.next
      let h ← updEle h temp fun t => { t with next := prev }
      reverseLoop end_ n h head

def q_reverse (fuel : ℕ) (h : Mem) (q : Ptr) : Except Stop Mem :=
  if q = NULL then .ok h
  else do
    let Q ← getQueue h q
    if Q.head = NULL ∨ Q.size = 1 then return h
    else do
      let temp := Q.head
      let end_ := Q.tail
      let h ← updEle h end_ fun e => { e with next := temp }
      let t ← getEle h temp
      let head := t.next
      let h ← updEle h temp fun t => { t with next := NULL }
      let h ← updQueue h q fun Q => { Q with tail := temp }
      let (h, head) ← reverseLoop end_ fuel h head
      updQueue h q fun Q => { Q with head := head }

def freeLoop (tail : Ptr) : ℕ → Mem → Ptr → Except Stop (Mem × Ptr)
  | 0, _, _ => .error .fuel
  | n + 1, h, head =>
    if head = tail then .ok (h, head)
    else do
      let e ← getEle h head
      let h ← free h e.value
      let h ← free h head
      freeLoop tail n h e.next

def q_free (fuel : ℕ) (h : Mem) (q : Ptr) : Except Stop Mem :=
  if q = NULL then .ok h
  else do
    let Q ← getQueue h q
    let h ← if Q.head ≠ NULL then do
        let (h, head) ← freeLoop Q.tail fuel h Q.head
        let e ← getEle h head
        let h ← free h e.value
        free h head
      else pure h
    free h q

/-! ### Calls -/

/-- A call on the queue, with the answers of `malloc` it will get. -/
inductive Op where
  | insertHead (s : CString) (node val : Ptr)
  | insertTail (s : CString) (node val : Ptr)
  | removeHead (sp : Option Buffer) (bufsize : BitVec 64)
  | reverse
  | size

/-- What a call gives back. -/
inductive Ret where
  | bool (ok : Bool)
  | removed (ok : Bool) (sp : Option Buffer)
  | int (n : ℤ)
  | void

def exec (fuel : ℕ) (h : Mem) (q : Ptr) : Op → Except Stop (Mem × Ret)
  | .insertHead s node val => do
    let (h, ok) ← q_insert_head h q s node val
    return (h, .bool ok)
  | .insertTail s node val => do
    let (h, ok) ← q_insert_tail h q s node val
    return (h, .bool ok)
  | .removeHead sp bufsize => do
    let (h, ok, sp) ← q_remove_head fuel h q sp bufsize
    return (h, .removed ok sp)
  | .reverse => do
    let h ← q_reverse fuel h q
    return (h, .void)
  | .size => do
    let n ← q_size h q
    return (h, .int n)

end Labs.Queue
