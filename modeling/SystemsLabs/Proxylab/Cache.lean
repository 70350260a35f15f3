import SystemsLabs.Schemes.Heap
import Mathlib.Algebra.Order.Ring.Nat

/-! @lab proxylab | file:cache.c, proxy.c (doit) | structure:doubly linked list | policy:LRU by age

    The proxy's web cache as the pointer program it is. Blocks are nodes with `prev`/`next` links;
    `cache_t` keeps the head of the list and the number of free bytes. Recency lives in the `age`
    fields only (the value of `time_count` at the last access), list order is insertion order, and
    `evict_age` scans for the smallest age below the sentinel `MIN`.

    Pointers are natural numbers, `NULL` is `0`. The `uri` and `obj` strings of a node are blocks of
    their own in the source, allocated and freed with their node; here they sit inside it. `size_t`
    arithmetic is modulo `2^64`. `Malloc` and `Calloc` (csapp.c) end the process when no memory is
    left, so an insertion takes the address `malloc` answers and stops with `exit` when that is not
    a free block. Every function takes the fuel of its loops. -/

namespace Labs.WebCache
open Schemes

abbrev Ptr := ℕ

def NULL : Ptr := 0

def MAX_CACHE_SIZE : ℕ := 1024 * 1024

def MAX_OBJECT_SIZE : ℕ := 100 * 1024

/-- Dummy minimum of the age scan ("assumes age per cache block doesn't exceed it"). -/
def MIN : ℕ := 100000000

/-- The bytes of a C string before its terminator, or of a buffer. -/
abbrev Bytes := List UInt8

/-- `size_t` sum and difference. -/
def addSize (a b : ℕ) : ℕ := (a + b) % 2 ^ 64

def subSize (a b : ℕ) : ℕ := (a + 2 ^ 64 - b) % 2 ^ 64

/-- What a cache block stores, its links apart. -/
structure Entry where
  uri : Bytes
  obj : Bytes
  age : ℕ
  size : ℕ
  deriving DecidableEq, Repr

structure Node extends Entry where
  prev : Ptr
  next : Ptr
  deriving DecidableEq, Repr

structure CacheT where
  head : Ptr
  slots : ℕ
  deriving DecidableEq, Repr

/-- `web_cache` and the nodes on the heap. -/
structure Mem where
  heap : Heap Ptr Node
  cache : CacheT

def init_cache : Mem := ⟨fun _ => none, ⟨NULL, MAX_CACHE_SIZE⟩⟩

def searchLoop (heap : Heap Ptr Node) (req_uri : Bytes) : ℕ → Ptr → Except Stop Ptr
  | 0, _ => .error .fuel
  | n + 1, start =>
    if start = NULL then .ok NULL
    else do
      let c ← heap.get start
      if c.uri = req_uri then .ok start else searchLoop heap req_uri n c.next

/-- Node holding the URI, or `NULL`. -/
def search_cache (fuel : ℕ) (m : Mem) (req_uri : Bytes) : Except Stop Ptr :=
  searchLoop m.heap req_uri fuel m.cache.head

/-- Stamp the node and copy its object out. -/
def read_response (m : Mem) (curr : Ptr) (time : ℕ) : Except Stop (Mem × Bytes) := do
  let c ← m.heap.get curr
  let heap ← m.heap.upd curr fun c => { c with age := time }
  return ({ m with heap := heap }, c.obj.take c.size)

def evictAgeLoop (heap : Heap Ptr Node) : ℕ → Ptr → ℕ → Ptr → Except Stop Ptr
  | 0, _, _, _ => .error .fuel
  | n + 1, start, currmin, evict =>
    if start = NULL then .ok evict
    else do
      let c ← heap.get start
      if c.age < currmin then evictAgeLoop heap n c.next c.age start
      else evictAgeLoop heap n c.next currmin evict

/-- Node with the smallest age below `MIN`, or `NULL`. -/
def evict_age (fuel : ℕ) (m : Mem) : Except Stop Ptr :=
  evictAgeLoop m.heap fuel m.cache.head MIN NULL

/-- Unlink a node that is first, last or in the middle. Its own links, which the source also clears,
    are gone with the node. -/
def unlink (m : Mem) (c : Node) : Except Stop Mem :=
  if c.prev = NULL then
    if c.next ≠ NULL then do
      let heap ← m.heap.upd c.next fun x => { x with prev := NULL }
      return { m with heap := heap, cache.head := c.next }
    else return { m with cache.head := c.next }
  else if c.next = NULL then do
    let heap ← m.heap.upd c.prev fun x => { x with next := NULL }
    return { m with heap := heap }
  else do
    let heap ← m.heap.upd c.prev fun x => { x with next := c.next }
    let heap ← heap.upd c.next fun x => { x with prev := c.prev }
    return { m with heap := heap }

def removeLoop (m : Mem) (remove : Ptr) : ℕ → Ptr → Except Stop Mem
  | 0, _ => .error .fuel
  | n + 1, start =>
    if start = NULL then .ok m
    else do
      let c ← m.heap.get start
      if start = remove then do
        let m ← unlink m c
        return { heap := m.heap.del start, cache.head := m.cache.head,
                 cache.slots := addSize m.cache.slots c.size }
      else removeLoop m remove n c.next

def remove_from_cache (fuel : ℕ) (m : Mem) (remove : Ptr) : Except Stop Mem :=
  removeLoop m remove fuel m.cache.head

/-- `while (size > cache->slots)`: when no block qualifies the loop goes round unchanged. -/
def evictLoop (fuel : ℕ) (size : ℕ) : ℕ → Mem → Except Stop Mem
  | 0, _ => .error .fuel
  | n + 1, m =>
    if size > m.cache.slots then do
      let rem_block ← evict_age fuel m
      let m ← if rem_block ≠ NULL then remove_from_cache fuel m rem_block else .ok m
      evictLoop fuel size n m
    else .ok m

/-- Link a new node in front; `elem` is what `Malloc` got. -/
def push (m : Mem) (elem : Ptr) (e : Entry) : Except Stop Mem :=
  if elem = NULL ∨ (m.heap elem).isSome then .error .exit
  else do
    let heap := m.heap.put elem { e with prev := NULL, next := m.cache.head }
    let slots := subSize m.cache.slots e.size
    if m.cache.head ≠ NULL then do
      let heap ← heap.upd m.cache.head fun x => { x with prev := elem }
      return ⟨heap, ⟨elem, slots⟩⟩
    else return ⟨heap, ⟨elem, slots⟩⟩

def add_to_cache (fuel : ℕ) (m : Mem) (req_uri response : Bytes) (size time : ℕ) (elem : Ptr) :
    Except Stop Mem := do
  let uri_len := req_uri.length
  let m ← evictLoop fuel size fuel m
  push m elem { uri := req_uri.take uri_len, obj := response.take size, age := time, size := size }

/-! ### The two critical sections of `doit` -/

/-- The state the sections share: `web_cache` and `time_count`. -/
structure Proxy where
  mem : Mem
  time_count : ℕ

def boot : Proxy := ⟨init_cache, 0⟩

/-- First section: on a hit, stamp the node and copy the object out before unlocking. -/
def lookupSection (fuel : ℕ) (p : Proxy) (uri : Bytes) : Except Stop (Proxy × Option Bytes) := do
  let found ← search_cache fuel p.mem uri
  if found ≠ NULL then do
    let time_count := addSize p.time_count 1
    let (m, response) ← read_response p.mem found time_count
    return (⟨m, time_count⟩, some response)
  else return (p, none)

/-- Second section: insert the response unless another thread has meanwhile. -/
def insertSection (fuel : ℕ) (p : Proxy) (uri response : Bytes) (size : ℕ) (elem : Ptr) :
    Except Stop Proxy := do
  let found ← search_cache fuel p.mem uri
  if found = NULL then do
    let time_count := addSize p.time_count 1
    let m ← add_to_cache fuel p.mem uri response size time_count elem
    return ⟨m, time_count⟩
  else return p

/-- One access by a single `doit`: the URI, the origin's object, and `malloc`'s answer. -/
structure Access where
  uri : Bytes
  obj : Bytes
  elem : Ptr
  deriving DecidableEq, Repr

/-- Lookup, and on a miss the insertion of the origin's object. A hit yields the bytes served. -/
def access (fuel : ℕ) (p : Proxy) (x : Access) : Except Stop (Proxy × Option Bytes) := do
  let (p, served) ← lookupSection fuel p x.uri
  match served with
  | some response => return (p, some response)
  | none => do
    let p ← insertSection fuel p x.uri x.obj x.obj.length x.elem
    return (p, none)

/-- Accesses in sequence, with what each of them served from the cache. -/
def accesses (fuel : ℕ) : Proxy → List Access → Except Stop (Proxy × List (Option Bytes))
  | p, [] => .ok (p, [])
  | p, x :: xs => do
    let (p, served) ← access fuel p x
    let (p, rest) ← accesses fuel p xs
    return (p, served :: rest)

end Labs.WebCache
