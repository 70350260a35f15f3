import Mathlib.Algebra.Order.Ring.Nat
import Mathlib.Tactic.Common

/-! @scheme memory | structure:flat byte memory, little-endian words | used by:allocators

    A memory has a byte at every address. Writing bytes at an address changes that range and nothing
    else; filling and copying are writes. A word of `k` bytes is stored with its low byte first, and
    is read back as it was as long as nothing else is written over it. -/

namespace Schemes

abbrev Memory := ℕ → UInt8

namespace Memory
variable {m m' : Memory} {a b i n x : ℕ} {c : UInt8} {bs : List UInt8}

def write (m : Memory) (a : ℕ) (bs : List UInt8) : Memory := fun x =>
  if a ≤ x then (bs[x - a]?).getD (m x) else m x

def read (m : Memory) (a n : ℕ) : List UInt8 := (List.range n).map fun i => m (a + i)

def memset (m : Memory) (a : ℕ) (c : UInt8) (n : ℕ) : Memory := m.write a (List.replicate n c)

def memcpy (m : Memory) (dst src n : ℕ) : Memory := m.write dst (m.read src n)

@[simp] theorem read_length : (m.read a n).length = n := by simp [read]

theorem write_in (h : i < bs.length) : m.write a bs (a + i) = bs[i] := by
  simp [write, h]

theorem write_out (h : x < a ∨ a + bs.length ≤ x) : m.write a bs x = m x := by
  rw [write]
  split
  · rw [List.getElem?_eq_none (by omega)]
    rfl
  · rfl

theorem memset_in (h : i < n) : m.memset a c n (a + i) = c := by
  rw [memset, write_in (by simpa using h), List.getElem_replicate]

theorem memset_out (h : x < a ∨ a + n ≤ x) : m.memset a c n x = m x :=
  write_out (by simpa using h)

theorem memcpy_in (h : i < n) : m.memcpy a b n (a + i) = m (b + i) := by
  rw [memcpy, write_in (by simpa using h)]
  simp [read]

theorem memcpy_out (h : x < a ∨ a + n ≤ x) : m.memcpy a b n x = m x :=
  write_out (by simpa using h)

/-! ### Words -/

/-- The low `k` bytes of a number, lowest first. -/
def toBytes : ℕ → ℕ → List UInt8
  | 0, _ => []
  | k + 1, n => UInt8.ofNat n :: toBytes k (n / 256)

def ofBytes : List UInt8 → ℕ
  | [] => 0
  | c :: bs => c.toNat + 256 * ofBytes bs

def WORD : ℕ := 8

def loadWord (m : Memory) (a : ℕ) : ℕ := ofBytes (m.read a WORD)

def storeWord (m : Memory) (a n : ℕ) : Memory := m.write a (toBytes WORD n)

theorem toBytes_length : ∀ {k n : ℕ}, (toBytes k n).length = k
  | 0, _ => rfl
  | k + 1, n => by rw [toBytes, List.length_cons, toBytes_length]

theorem ofBytes_toBytes : ∀ {k n : ℕ}, n < 256 ^ k → ofBytes (toBytes k n) = n
  | 0, n, h => by
      rw [Nat.pow_zero] at h
      rw [toBytes, ofBytes]
      omega
  | k + 1, n, h => by
      have hdiv : n / 256 < 256 ^ k := by
        rw [Nat.pow_succ] at h
        exact Nat.div_lt_of_lt_mul (by omega)
      rw [toBytes, ofBytes, ofBytes_toBytes hdiv, UInt8.toNat_ofNat']
      exact Nat.mod_add_div n 256

theorem read_congr (h : ∀ i < n, m' (a + i) = m (a + i)) : m'.read a n = m.read a n := by
  rw [read, read, List.map_inj_left]
  intro i hi
  exact h i (List.mem_range.mp hi)

theorem read_write : (m.write a bs).read a bs.length = bs := by
  refine List.ext_getElem read_length fun i h₁ h₂ => ?_
  simp only [read, List.getElem_map, List.getElem_range]
  exact write_in h₂

/-- A word is read back. -/
theorem loadWord_storeWord (h : n < 2 ^ 64) : (m.storeWord a n).loadWord a = n := by
  have hread : (m.write a (toBytes WORD n)).read a (toBytes WORD n).length = _ := read_write
  rw [toBytes_length] at hread
  rw [loadWord, storeWord, hread]
  exact ofBytes_toBytes (by simpa [WORD] using h)

theorem storeWord_out (h : x < a ∨ a + WORD ≤ x) : m.storeWord a n x = m x :=
  write_out (by rwa [toBytes_length])

theorem loadWord_congr (h : ∀ i < WORD, m' (a + i) = m (a + i)) : m'.loadWord a = m.loadWord a := by
  rw [loadWord, loadWord, read_congr h]

end Memory

end Schemes
