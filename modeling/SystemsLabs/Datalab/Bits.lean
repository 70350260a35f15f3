import Mathlib.Data.Nat.Notation
import Mathlib.Data.Int.Notation
import Mathlib.Tactic.Common

/-! @lab datalab | file:bits.c, tests.c | structure:straight-line puzzles on 64-bit words

    The integer puzzles and the reference functions they are tested against. As the rules of the file
    say, a `long` is a two's complement word of 64 bits and `>>` shifts in the sign; `+` and `<<` wrap,
    which some puzzles rely on. `!` gives 0 or 1. Each round of the divide-and-conquer puzzles is the
    same expression in a mask and a width. -/

namespace Labs.Datalab

/-- `!x` -/
def lnot (x : BitVec 64) : BitVec 64 := if x = 0 then 1 else 0

/-! ### Division by powers of two -/

/-- 1 for a negative number, else 0. -/
def sign (x : BitVec 64) : BitVec 64 := lnot (lnot (x.sshiftRight 63 <<< 63))

/-- What is added before a shift by `n`: `2^n - 1` for a negative number, else 0. -/
def bias (x : BitVec 64) (n : ℕ) : BitVec 64 := ~~~(~~~(sign x <<< n) + sign x)

def dividePower2 (x n : BitVec 64) : BitVec 64 := (x + bias x n.toNat).sshiftRight n.toNat

def test_dividePower2 (x n : BitVec 64) : BitVec 64 :=
  let p2n := 1#64 <<< n.toNat
  x.sdiv p2n

def trueThreeFourths (x : BitVec 64) : BitVec 64 :=
  let mod := x &&& 0x03
  let mod := (mod + mod + mod + bias x 2).sshiftRight 2
  let x := x.sshiftRight 2
  x + x + x + mod

/-- The reference; the product is one of 128 bits. -/
def test_trueThreeFourths (x : BitVec 64) : BitVec 64 := BitVec.ofInt 64 ((x.toInt * 3).tdiv 4)

/-! ### Masks -/

def FFFF : BitVec 64 := (0xFF#64 <<< 8) ||| 0xFF

def mask6 : BitVec 64 := (FFFF <<< 16) ||| FFFF

def mask5 : BitVec 64 := (mask6 <<< 16) ^^^ mask6

def mask4 : BitVec 64 := (mask5 <<< 8) ^^^ mask5

def mask3 : BitVec 64 := (mask4 <<< 4) ^^^ mask4

def mask2 : BitVec 64 := (mask3 <<< 2) ^^^ mask3

def mask1 : BitVec 64 := (mask2 <<< 1) ^^^ mask2

/-- The mask of the fields of `2^k` bits. -/
def maskAt (k : ℕ) : BitVec 64 := [mask1, mask2, mask3, mask4, mask5, mask6].getD k 0

/-! ### Counting bits -/

/-- A round of `bitCount`: fields of `w` bits are added in pairs. -/
def addPairs (mask : BitVec 64) (w : ℕ) (new : BitVec 64) : BitVec 64 :=
  (new &&& mask) + (new.sshiftRight w &&& mask)

def bitCount (x : BitVec 64) : BitVec 64 :=
  let new := addPairs mask1 1 x
  let new := addPairs mask2 2 new
  let new := addPairs mask3 4 new
  let new := addPairs mask4 8 new
  let new := addPairs mask5 16 new
  addPairs mask6 32 new

def test_bitCount (x : BitVec 64) : BitVec 64 :=
  (List.range 64).foldl (fun result i => result + (x.sshiftRight i &&& 0x1)) 0

/-! ### Palindromes -/

/-- A round of `isPalindrome`: fields of `w` bits change places in pairs. -/
def swapPairs (mask : BitVec 64) (w : ℕ) (rev : BitVec 64) : BitVec 64 :=
  ((rev &&& mask) <<< w) ||| ((rev &&& (mask <<< w)).sshiftRight w &&& mask)

/-- `rev` after the six rounds. -/
def reversed (x : BitVec 64) : BitVec 64 :=
  let rev := swapPairs mask6 32 x
  let rev := swapPairs mask5 16 rev
  let rev := swapPairs mask4 8 rev
  let rev := swapPairs mask3 4 rev
  let rev := swapPairs mask2 2 rev
  swapPairs mask1 1 rev

def isPalindrome (x : BitVec 64) : BitVec 64 := lnot (reversed x ^^^ x)

def test_isPalindrome (x : BitVec 64) : BitVec 64 :=
  let mask := 0xFFFFFFFF
  let xlo := x &&& mask
  let xhi := x.sshiftRight 32 &&& mask
  (List.range 32).foldl (fun result i =>
    let flipi := 31 - i
    let bhigh := xhi.sshiftRight i &&& 0x1
    let blow := xlo.sshiftRight flipi &&& 0x1
    if result ≠ 0 ∧ bhigh = blow then 1 else 0) 1

/-! ### Logarithm -/

/-- A step of `integerLog2`: is there a bit from `half + w` on? The answer becomes bit `k`. -/
def narrow (x : BitVec 64) (w : BitVec 64) (k : ℕ) (half : BitVec 64) : BitVec 64 :=
  half + (lnot (lnot (x.sshiftRight (half + w).toNat)) <<< k)

def integerLog2 (x : BitVec 64) : BitVec 64 :=
  let half := lnot (lnot (x.sshiftRight 32)) <<< 5
  let half := narrow x 16 4 half
  let half := narrow x 8 3 half
  let half := narrow x 4 2 half
  let half := narrow x 2 1 half
  half + lnot (lnot (x.sshiftRight (half + 1).toNat))

/-- The loop of the reference, with the counter at `n - 1`. -/
def leftmostBit (x : BitVec 64) : ℕ → BitVec 64
  | 0 => -1
  | n + 1 => if x &&& (1#64 <<< n) ≠ 0 then BitVec.ofNat 64 n else leftmostBit x n

def test_integerLog2 (x : BitVec 64) : BitVec 64 := leftmostBit x 64

end Labs.Datalab
