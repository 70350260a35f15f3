import Mathlib.Data.List.Basic
import Mathlib.Data.Nat.Bitwise
import Mathlib.Tactic.Common

/-! @lab cachelab | file:csim.c | structure:set-associative cache | policy:write-back LRU

    The cache simulator. A trace line is a load or a store of a 64-bit address; `run` splits the
    address into tag and set index, looks the tag up in the set, and on a miss fills the first
    invalid line or evicts the line with the smallest `LRU` stamp. Stamps are the value of the
    global `time` counter at the line's last access. The trace reader and the summary of `main` are
    in CsimMain; its argument parsing is left out.

        search of the set:   valid, same tag ──▶ hit   (restamp)
                             first invalid   ──▶ miss  (fill that line, stop searching)
                             end of the set  ──▶ miss  (evict)  -/

namespace Labs.Csim

/-- `MIN`: sentinel of the eviction scan. -/
def MIN : ℕ := 100000000

/-- Totals of a simulation; `time` stamps the lines. -/
structure CacheInformation where
  time : ℕ
  hits : ℕ
  misses : ℕ
  evicts : ℕ
  dirtyEvicted : ℕ
  deriving DecidableEq, Repr

structure SetLine where
  valid : Bool
  dirty : Bool
  LRU : ℕ
  tag : BitVec 64
  deriving DecidableEq, Repr

/-- The lines of one set. -/
abbrev CacheSet := List SetLine

structure Cache where
  sets : List CacheSet
  E : ℕ
  s : ℕ
  b : ℕ
  B : ℕ
  deriving DecidableEq, Repr

/-- A line as `calloc` leaves it. -/
def zeroLine : SetLine := ⟨false, false, 0, 0⟩

/-- `newCache` for `S = 2^s` sets and blocks of `B = 2^b` bytes, with the `s` and `b` fields that
    `main` fills in afterwards. -/
def newCache (s E b : ℕ) : Cache :=
  { sets := List.replicate (1 <<< s) (List.replicate E zeroLine)
    E := E, s := s, b := b, B := 1 <<< b }

def evictLoop : List SetLine → ℕ → ℕ → ℕ → ℕ
  | [], _, _, minIndex => minIndex
  | l :: ls, i, min, minIndex =>
    if l.LRU < min then evictLoop ls (i + 1) l.LRU i else evictLoop ls (i + 1) min minIndex

/-- Index of the line to evict: strict minimum of the stamps, scanned from `MIN`. -/
def evict (currSet : CacheSet) (E : ℕ) : ℕ := evictLoop (currSet.take E) 0 MIN 0

/-- Dirty bytes resident at the end of a simulation. -/
def dirtyInCache (currCache : Cache) (S : ℕ) : ℕ :=
  ((currCache.sets.take S).map fun set =>
    ((set.take currCache.E).map fun l => if l.dirty then currCache.B else 0).sum).sum

def getTag (addr : BitVec 64) (currCache : Cache) : BitVec 64 :=
  let shift := currCache.s + currCache.b
  ((addr >>> shift) <<< shift) >>> shift

/-- The index is cut to 32 bits before it is masked. -/
def getSetIndex (addr : BitVec 64) (currCache : Cache) : BitVec 32 :=
  let mask : BitVec 32 := (1#32 <<< currCache.s) - 1
  let index : BitVec 32 := (((addr >>> currCache.b) <<< currCache.b) >>> currCache.b).setWidth 32
  index &&& mask

/-- The line `addLine` leaves in the set. -/
def newLine (tag : BitVec 64) (sflag : Bool) (time : ℕ) : SetLine := ⟨true, sflag, time, tag⟩

def addLine (currSet : CacheSet) (tag : BitVec 64) (index : ℕ) (sflag : Bool) (time : ℕ) :
    CacheSet :=
  currSet.set index (newLine tag sflag time)

/-- How the search loop of `run` ends. -/
inductive Probe where
  | hit (i : ℕ)
  | empty (i : ℕ)
  | full
  deriving DecidableEq, Repr

/-- Search loop of `run`: it stops at the matching line or at the first invalid one. -/
def search (traceTag : BitVec 64) : List SetLine → ℕ → Probe
  | [], _ => .full
  | l :: ls, i =>
    if l.valid then
      if l.tag = traceTag then .hit i else search traceTag ls (i + 1)
    else .empty i

/-- A hit restamps the line and a store makes it dirty (a load leaves a dirty line dirty). -/
def touchLine (sflag : Bool) (time : ℕ) (l : SetLine) : SetLine :=
  { l with LRU := time, dirty := if sflag then true else l.dirty }

/-- One access. -/
def run (cacheInfo : CacheInformation) (currCache : Cache) (addr : BitVec 64) (sflag : Bool) :
    CacheInformation × Cache :=
  let cacheInfo := { cacheInfo with time := cacheInfo.time + 1 }
  let traceTag := getTag addr currCache
  let setIndex := (getSetIndex addr currCache).toNat
  let currSet := currCache.sets.getD setIndex []
  let store (set : CacheSet) : Cache := { currCache with sets := currCache.sets.set setIndex set }
  match search traceTag (currSet.take currCache.E) 0 with
  | .hit i =>
    ({ cacheInfo with hits := cacheInfo.hits + 1 },
      store (currSet.modify i (touchLine sflag cacheInfo.time)))
  | .empty i =>
    ({ cacheInfo with misses := cacheInfo.misses + 1 },
      store (addLine currSet traceTag i sflag cacheInfo.time))
  | .full =>
    let evictedLine := evict currSet currCache.E
    let lost := if (currSet.getD evictedLine zeroLine).dirty then currCache.B else 0
    ({ cacheInfo with
        misses := cacheInfo.misses + 1
        evicts := cacheInfo.evicts + 1
        dirtyEvicted := cacheInfo.dirtyEvicted + lost },
      store (addLine currSet traceTag evictedLine sflag cacheInfo.time))

/-- One parsed trace line: the address, and whether it is a store. -/
structure Access where
  addr : BitVec 64
  sflag : Bool
  deriving DecidableEq, Repr

/-- State of `main`'s loop: the totals and the cache. -/
abbrev Sim := CacheInformation × Cache

def start (s E b : ℕ) : Sim := (⟨0, 0, 0, 0, 0⟩, newCache s E b)

def Sim.access (st : Sim) (a : Access) : Sim := run st.1 st.2 a.addr a.sflag

/-- `main`'s loop over a trace, from the empty cache. -/
def simulate (s E b : ℕ) (tr : List Access) : Sim := tr.foldl Sim.access (start s E b)

@[simp] theorem simulate_concat (s E b : ℕ) (tr : List Access) (a : Access) :
    simulate s E b (tr ++ [a]) = (simulate s E b tr).access a := by
  simp [simulate]

/-! ### Addresses: tag and set index as numbers -/

/-- `addr >> b`. -/
def block (b : ℕ) (addr : BitVec 64) : ℕ := addr.toNat / 2 ^ b

theorem shift_back {w : ℕ} (x : BitVec w) (n : ℕ) : ((x >>> n) <<< n) >>> n = x >>> n := by
  apply BitVec.eq_of_getLsbD_eq
  intro i _
  simp only [BitVec.getLsbD_ushiftRight, BitVec.getLsbD_shiftLeft]
  by_cases h : n + i < w
  · simp [h]
  · simp [h, BitVec.getLsbD_of_ge x (n + i) (by omega)]

theorem getTag_toNat (addr : BitVec 64) (c : Cache) :
    (getTag addr c).toNat = block c.b addr / 2 ^ c.s := by
  rw [getTag, shift_back, BitVec.toNat_ushiftRight, Nat.shiftRight_eq_div_pow, block,
    Nat.div_div_eq_div_mul, ← pow_add, Nat.add_comm]

theorem mask_toNat {s : ℕ} (hs : s ≤ 30) : ((1#32 <<< s) - 1 : BitVec 32).toNat = 2 ^ s - 1 := by
  have hlt : 2 ^ s < 2 ^ 32 := Nat.pow_lt_pow_right (by omega) (by omega)
  have hpos : 0 < 2 ^ s := Nat.two_pow_pos _
  have hone : (1#32 <<< s).toNat = 2 ^ s := by
    rw [BitVec.toNat_shiftLeft, Nat.shiftLeft_eq, BitVec.toNat_ofNat, Nat.one_mod, one_mul,
      Nat.mod_eq_of_lt hlt]
  rw [BitVec.toNat_sub, hone]
  change (2 ^ 32 - 1 + 2 ^ s) % 2 ^ 32 = 2 ^ s - 1
  omega

/-- Neither the cut to 32 bits nor the signed mask loses an index bit. -/
theorem getSetIndex_toNat (addr : BitVec 64) (c : Cache) (hs : c.s ≤ 30) :
    (getSetIndex addr c).toNat = block c.b addr % 2 ^ c.s := by
  have hdvd : 2 ^ c.s ∣ 2 ^ 32 := Nat.pow_dvd_pow 2 (by omega)
  simp only [getSetIndex, shift_back, BitVec.toNat_and, mask_toNat hs, BitVec.toNat_setWidth,
    BitVec.toNat_ushiftRight, Nat.shiftRight_eq_div_pow, Nat.and_two_pow_sub_one_eq_mod]
  exact Nat.mod_mod_of_dvd _ hdvd

/-- Tag and set index together are the block number. -/
theorem tag_index_block (addr : BitVec 64) (c : Cache) (hs : c.s ≤ 30) :
    (getTag addr c).toNat * 2 ^ c.s + (getSetIndex addr c).toNat = block c.b addr := by
  rw [getTag_toNat, getSetIndex_toNat addr c hs]
  exact Nat.div_add_mod' _ _

theorem block_toNat (b : ℕ) (addr : BitVec 64) : (addr >>> b).toNat = block b addr := by
  rw [BitVec.toNat_ushiftRight, Nat.shiftRight_eq_div_pow, block]

/-- Same tag and same set index: same block. -/
theorem same_block_iff (x y : BitVec 64) (c : Cache) (hs : c.s ≤ 30) :
    (getTag x c = getTag y c ∧ getSetIndex x c = getSetIndex y c) ↔ x >>> c.b = y >>> c.b := by
  constructor
  · rintro ⟨htag, hindex⟩
    apply BitVec.eq_of_toNat_eq
    rw [block_toNat, block_toNat, ← tag_index_block x c hs, ← tag_index_block y c hs, htag, hindex]
  · intro hblock
    have hnum : block c.b x = block c.b y := by
      rw [← block_toNat, ← block_toNat, hblock]
    constructor
    · apply BitVec.eq_of_toNat_eq
      rw [getTag_toNat, getTag_toNat, hnum]
    · apply BitVec.eq_of_toNat_eq
      rw [getSetIndex_toNat x c hs, getSetIndex_toNat y c hs, hnum]

/-- Tag, set index and offset put together again. -/
theorem reassemble (addr : BitVec 64) (c : Cache) (hs : c.s ≤ 30) :
    (getTag addr c).toNat * 2 ^ (c.s + c.b) + (getSetIndex addr c).toNat * 2 ^ c.b +
      addr.toNat % 2 ^ c.b = addr.toNat := by
  calc (getTag addr c).toNat * 2 ^ (c.s + c.b) + (getSetIndex addr c).toNat * 2 ^ c.b +
        addr.toNat % 2 ^ c.b
      = ((getTag addr c).toNat * 2 ^ c.s + (getSetIndex addr c).toNat) * 2 ^ c.b +
          addr.toNat % 2 ^ c.b := by rw [pow_add, Nat.add_mul, Nat.mul_assoc]
    _ = block c.b addr * 2 ^ c.b + addr.toNat % 2 ^ c.b := by rw [tag_index_block addr c hs]
    _ = addr.toNat := Nat.div_add_mod' _ _

/-- For every geometry the options allow, tag and set index are a name for the block: every shift is
    by less than the width, the index selects a set, and nothing of the address is lost. -/
theorem tag_index_exact (c : Cache) (hs : c.s ≤ 30) (hb : c.b ≤ 30) :
    c.s + c.b < 64 ∧ ∀ x : BitVec 64, (getSetIndex x c).toNat < 2 ^ c.s ∧
      (getTag x c).toNat * 2 ^ (c.s + c.b) + (getSetIndex x c).toNat * 2 ^ c.b +
        x.toNat % 2 ^ c.b = x.toNat ∧
      ∀ y : BitVec 64,
        (getTag x c = getTag y c ∧ getSetIndex x c = getSetIndex y c) ↔ x >>> c.b = y >>> c.b := by
  refine ⟨by omega, fun x => ⟨?_, reassemble x c hs, fun y => same_block_iff x y c hs⟩⟩
  rw [getSetIndex_toNat x c hs]
  exact Nat.mod_lt _ (Nat.two_pow_pos _)

/-- 16 sets of 16-byte blocks: two addresses that differ from bit 60 on only. -/
theorem tag_index_exact_high :
    ¬ (getTag 0x1000000000000010 (newCache 4 1 4) = getTag 0x10 (newCache 4 1 4) ∧
      getSetIndex 0x1000000000000010 (newCache 4 1 4) = getSetIndex 0x10 (newCache 4 1 4)) := by
  rw [((tag_index_exact (newCache 4 1 4) (by decide) (by decide)).2 0x1000000000000010).2.2 0x10]
  decide

end Labs.Csim
