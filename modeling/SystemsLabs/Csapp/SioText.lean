import Mathlib.Data.List.Induction
import SystemsLabs.Schemes.Buffer
import SystemsLabs.Schemes.Loop
import SystemsLabs.Schemes.Numeral

/-! @lab csapp | file:csapp.c (sio_reverse, write_digits, intmax_to_string, uintmax_to_string) |
    structure:digits in a buffer | main result:the text of a number

    The digits of a number are written lowest first and then turned round, in a buffer of the caller.
    `s` is the offset that the string starts at. In `sio_reverse` the length is a `size_t`: for an
    empty string `len - 1` is the largest one. The negation in `intmax_to_string` wraps, so that the
    smallest number is its own negative. -/

namespace Labs.Sio
open Schemes
variable {n s i j v : ℕ} {b : UInt8} {buf : Buffer n} {pre post : List UInt8}

/-- The loop of `sio_reverse`. -/
def reverseLoop (s : ℕ) : ℕ → ℕ → ℕ → Buffer n → Except Stop (Buffer n)
  | 0, _, _, _ => .error .fuel
  | k + 1, i, j, buf =>
    if i < j then do
      let c ← buf.load (s + i)
      let d ← buf.load (s + j)
      let buf ← buf.store (s + i) d
      let buf ← buf.store (s + j) c
      reverseLoop s k (i + 1) (j - 1) buf
    else .ok buf

def sio_reverse (fuel : ℕ) (buf : Buffer n) (s len : ℕ) : Except Stop (Buffer n) :=
  reverseLoop s fuel 0 ((len + (2 ^ 64 - 1)) % 2 ^ 64) buf

/-- The loop of `write_digits`, `i` digits being written. -/
def digitsLoop (s : ℕ) (b : UInt8) : ℕ → ℕ → Buffer n → ℕ → Except Stop (ℕ × Buffer n)
  | 0, _, _, _ => .error .fuel
  | k + 1, v, buf, i =>
    if b = 0 then .error .fault
    else do
      let c := UInt8.ofNat (v % b.toNat)
      let buf ← buf.store (s + i) (if c < 10 then c + 48 else c - 10 + 97)
      let v := v / b.toNat
      if v > 0 then digitsLoop s b k v buf (i + 1) else .ok (i + 1, buf)

def write_digits (fuel : ℕ) (v : BitVec 64) (buf : Buffer n) (s : ℕ) (b : UInt8) :
    Except Stop (ℕ × Buffer n) :=
  digitsLoop s b fuel v.toNat buf 0

def intmax_to_string (fuel : ℕ) (v : BitVec 64) (buf : Buffer n) (s : ℕ) (b : UInt8) :
    Except Stop (ℕ × Buffer n) := do
  let neg := v.slt 0
  let (len, buf) ←
    if neg then do
      let (len, buf) ← write_digits fuel (-v) buf s b
      let buf ← buf.store (s + len) 45
      Except.ok (len + 1, buf)
    else write_digits fuel v buf s b
  let buf ← buf.store (s + len) 0
  let buf ← sio_reverse fuel buf s len
  return (len, buf)

def uintmax_to_string (fuel : ℕ) (v : BitVec 64) (buf : Buffer n) (s : ℕ) (b : UInt8) :
    Except Stop (ℕ × Buffer n) := do
  let (len, buf) ← write_digits fuel v buf s b
  let buf ← buf.store (s + len) 0
  let buf ← sio_reverse fuel buf s len
  return (len, buf)

/-! ### Reversal -/

/-- The part between the two indices is turned round, from both ends inwards. -/
theorem reverseLoop_spec (t : List UInt8) : ∀ {pre post : List UInt8} {i j : ℕ} {buf : Buffer n},
    buf.bytes = pre ++ t ++ post → pre.length = s + i → j + 1 = i + t.length →
    ∃ buf', Converges (fun fuel => reverseLoop s fuel i j buf) buf' ∧
      buf'.bytes = pre ++ t.reverse ++ post := by
  induction t using List.bidirectionalRec with
  | nil =>
    intro pre post i j buf hbytes _ hj
    rw [List.length_nil] at hj
    exact ⟨buf, Converges.const.succ fun k => by rw [reverseLoop, if_neg (by omega)], hbytes⟩
  | singleton c =>
    intro pre post i j buf hbytes _ hj
    rw [List.length_singleton] at hj
    exact ⟨buf, Converges.const.succ fun k => by rw [reverseLoop, if_neg (by omega)], hbytes⟩
  | cons_append c t d ih =>
    intro pre post i j buf hbytes hi hj
    simp only [List.length_cons, List.length_append, List.length_nil] at hj
    have hleft : buf.bytes = pre ++ c :: (t ++ d :: post) := by simpa using hbytes
    have hright : buf.bytes = (pre ++ c :: t) ++ d :: post := by simpa using hbytes
    have hlen : ∀ e, (pre ++ e :: t).length = s + j := fun e => by
      rw [List.length_append, List.length_cons]
      omega
    have hc := Buffer.load_mid hleft hi
    have hd := Buffer.load_mid hright (hlen c)
    obtain ⟨buf₁, hstore₁, hbytes₁⟩ := Buffer.store_mid d hleft hi
    have hright₁ : buf₁.bytes = (pre ++ d :: t) ++ d :: post := by simpa using hbytes₁
    obtain ⟨buf₂, hstore₂, hbytes₂⟩ := Buffer.store_mid c hright₁ (hlen d)
    obtain ⟨buf', hrun, hbytes'⟩ := @ih (pre ++ [d]) (c :: post) (i + 1) (j - 1) buf₂
      (by simpa using hbytes₂) (by rw [List.length_append, List.length_singleton]; omega) (by omega)
    refine ⟨buf', hrun.succ fun k => ?_, by simpa using hbytes'⟩
    rw [reverseLoop, if_pos (by omega), hc, ok_bind, hd, ok_bind, hstore₁, ok_bind, hstore₂, ok_bind]

theorem sio_reverse_spec {t : List UInt8} (ht : t ≠ []) (hlen : t.length < 2 ^ 64)
    (hbytes : buf.bytes = pre ++ t ++ post) (hs : pre.length = s) :
    ∃ buf', Converges (fun fuel => sio_reverse fuel buf s t.length) buf' ∧
      buf'.bytes = pre ++ t.reverse ++ post := by
  have hpos : 0 < t.length := List.length_pos_iff.mpr ht
  have hj : (t.length + (2 ^ 64 - 1)) % 2 ^ 64 = t.length - 1 := by omega
  simp only [sio_reverse, hj]
  exact reverseLoop_spec t hbytes (by omega) (by omega)

/-! ### Digits -/

/-- The character stored is the digit as written. -/
theorem stored_digit {d : ℕ} (hd : d < 36) :
    (if UInt8.ofNat d < 10 then UInt8.ofNat d + 48 else UInt8.ofNat d - 10 + 97) = digitChar d := by
  have hall : ∀ d : Fin 36, (if UInt8.ofNat d < 10 then UInt8.ofNat d + 48
      else UInt8.ofNat d - 10 + 97) = digitChar d := by decide
  exact hall ⟨d, hd⟩

/-- The digits are written behind those that are there. -/
theorem digitsLoop_spec (hb : 1 < b.toNat) (hmax : b.toNat ≤ 36) (v : ℕ) :
    ∀ {pre room : List UInt8} {i : ℕ} {buf : Buffer n},
    buf.bytes = pre ++ room → pre.length = s + i → (digitsOf b.toNat v).length ≤ room.length →
    ∃ buf', Converges (fun fuel => digitsLoop s b fuel v buf i)
        (i + (digitsOf b.toNat v).length, buf') ∧
      buf'.bytes = pre ++ (digitsOf b.toNat v).map digitChar ++
        room.drop (digitsOf b.toNat v).length := by
  induction v using Nat.strongRecOn with
  | _ v ih =>
    intro pre room i buf hbytes hi hroom
    have hb0 : ¬ b = 0 := by
      rintro rfl
      exact absurd hb (by decide)
    have hmod : v % b.toNat < 36 := Nat.lt_of_lt_of_le (Nat.mod_lt v (by omega)) hmax
    rw [digitsOf_step hb] at hroom ⊢
    cases room with
    | nil => exact absurd hroom (by simp)
    | cons c room =>
      obtain ⟨buf₁, hstore, hbytes₁⟩ := Buffer.store_mid (digitChar (v % b.toNat)) hbytes hi
      have hround : ∀ k, digitsLoop s b (k + 1) v buf i =
          if v / b.toNat > 0 then digitsLoop s b k (v / b.toNat) buf₁ (i + 1)
          else .ok (i + 1, buf₁) := fun k => by
        rw [digitsLoop, if_neg hb0]
        simp only [stored_digit hmod, hstore, ok_bind]
      rcases Nat.eq_zero_or_pos (v / b.toNat) with hq | hq
      · refine ⟨buf₁, Converges.const.succ fun k => ?_, ?_⟩
        · rw [hround, if_neg (by omega), if_pos hq]
          rfl
        · rw [if_pos hq]
          simpa using hbytes₁
      · have hv : 0 < v := Nat.pos_of_ne_zero fun h => by simp [h] at hq
        rw [if_neg hq.ne'] at hroom ⊢
        obtain ⟨buf', hrun, hbytes'⟩ := @ih (v / b.toNat) (Nat.div_lt_self hv hb)
          (pre ++ [digitChar (v % b.toNat)]) room (i + 1) buf₁ (by simpa using hbytes₁)
          (by rw [List.length_append, List.length_singleton]; omega) (by simpa using hroom)
        refine ⟨buf', ?_, by simpa using hbytes'⟩
        rw [List.length_cons, Nat.add_comm _ 1, ← Nat.add_assoc]
        exact hrun.succ fun k => by rw [hround, if_pos hq]

theorem write_digits_spec (hb : 1 < b.toNat) (hmax : b.toNat ≤ 36) (v : BitVec 64)
    {room : List UInt8} (hbytes : buf.bytes = pre ++ room) (hs : pre.length = s)
    (hroom : (digitsOf b.toNat v.toNat).length ≤ room.length) :
    ∃ buf', Converges (fun fuel => write_digits fuel v buf s b)
        ((digitsOf b.toNat v.toNat).length, buf') ∧
      buf'.bytes = pre ++ (digitsOf b.toNat v.toNat).map digitChar ++
        room.drop (digitsOf b.toNat v.toNat).length := by
  have hspec := digitsLoop_spec hb hmax v.toNat hbytes (i := 0) (by omega) hroom
  simpa only [write_digits, Nat.zero_add] using hspec

/-! ### The text of a number -/

/-- The digits are ended and turned round. -/
theorem turn_spec {t : List UInt8} {c : UInt8} (ht : t ≠ []) (hlen : t.length < 2 ^ 64)
    (hbytes : buf.bytes = pre ++ t ++ c :: post) (hs : pre.length = s) :
    ∃ buf', Converges (fun fuel => do
        let buf ← buf.store (s + t.length) 0
        let buf ← sio_reverse fuel buf s t.length
        return (t.length, buf)) (t.length, buf') ∧
      buf'.bytes = pre ++ t.reverse ++ 0 :: post := by
  obtain ⟨buf₁, hstore, hbytes₁⟩ := Buffer.store_mid 0 hbytes
    (by rw [List.length_append, hs] : (pre ++ t).length = s + t.length)
  obtain ⟨buf', hrun, hbytes'⟩ := sio_reverse_spec ht hlen hbytes₁ hs
  refine ⟨buf', ?_, hbytes'⟩
  simp only [hstore, ok_bind]
  exact hrun.bind Converges.const

theorem digits_length_lt (hb : 1 < b.toNat) (v : BitVec 64) :
    (digitsOf b.toNat v.toNat).length ≤ 64 :=
  digitsOf_length hb (by decide)
    (Nat.lt_of_lt_of_le v.isLt (Nat.pow_le_pow_left hb 64))

theorem digits_ne_nil (hb : 1 < b.toNat) (v : ℕ) : (digitsOf b.toNat v).map digitChar ≠ [] := by
  rw [digitsOf_step hb]
  simp

/-- The magnitude that is written for a negative number, the smallest one included. -/
theorem toNat_neg_of_slt {v : BitVec 64} (h : v.slt 0 = true) : (-v).toNat = v.toInt.natAbs := by
  have hneg : v.toInt < 0 := by simpa [BitVec.slt] using h
  have hlt := v.isLt
  rw [BitVec.toNat_neg]
  rw [BitVec.toInt_eq_toNat_cond] at hneg ⊢
  split at hneg
  · omega
  · rename_i hbig
    rw [if_neg hbig]
    omega

theorem toNat_of_not_slt {v : BitVec 64} (h : ¬ v.slt 0 = true) : v.toNat = v.toInt.natAbs := by
  have hneg : ¬ v.toInt < 0 := by simpa [BitVec.slt] using h
  have hlt := v.isLt
  rw [BitVec.toInt_eq_toNat_cond] at hneg ⊢
  split at hneg
  · rename_i hsmall
    rw [if_pos hsmall]
    omega
  · omega

theorem slt_zero_iff {v : BitVec 64} : v.slt 0 = true ↔ v.toInt < 0 := by simp [BitVec.slt]

/-- `uintmax_to_string` leaves the numeral and a NUL at `s`, and nothing else is changed. -/
theorem uintmax_to_string_spec (hb : 1 < b.toNat) (hmax : b.toNat ≤ 36) (v : BitVec 64)
    {room : List UInt8} (hbytes : buf.bytes = pre ++ room) (hs : pre.length = s)
    (hroom : 64 < room.length) :
    ∃ buf', Converges (fun fuel => uintmax_to_string fuel v buf s b)
        ((numeral b.toNat v.toNat).length, buf') ∧
      buf'.bytes = pre ++ numeral b.toNat v.toNat ++
        0 :: room.drop ((numeral b.toNat v.toNat).length + 1) := by
  have hlen := digits_length_lt hb v
  obtain ⟨buf₁, hwrite, hbytes₁⟩ := write_digits_spec hb hmax v hbytes hs (by omega)
  have htext : (numeral b.toNat v.toNat).length = (digitsOf b.toNat v.toNat).length := by
    simp [numeral]
  rw [htext]
  rw [List.drop_eq_getElem_cons (by omega)] at hbytes₁
  obtain ⟨buf', hrun, hbytes'⟩ := turn_spec (digits_ne_nil hb _)
    (by rw [List.length_map]; omega) hbytes₁ hs
  rw [List.length_map] at hrun
  exact ⟨buf', hwrite.bind hrun, hbytes'⟩

/-- `intmax_to_string` leaves the numeral with its sign and a NUL at `s`, and nothing else is
    changed. -/
theorem intmax_to_string_spec (hb : 1 < b.toNat) (hmax : b.toNat ≤ 36) (v : BitVec 64)
    {room : List UInt8} (hbytes : buf.bytes = pre ++ room) (hs : pre.length = s)
    (hroom : 65 < room.length) :
    ∃ buf', Converges (fun fuel => intmax_to_string fuel v buf s b)
        ((intNumeral b.toNat v.toInt).length, buf') ∧
      buf'.bytes = pre ++ intNumeral b.toNat v.toInt ++
        0 :: room.drop ((intNumeral b.toNat v.toInt).length + 1) := by
  by_cases hneg : v.slt 0 = true
  · have hlen := digits_length_lt hb (-v)
    obtain ⟨buf₁, hwrite, hbytes₁⟩ := write_digits_spec hb hmax (-v) hbytes hs (by omega)
    rw [List.drop_eq_getElem_cons (by omega)] at hbytes₁
    obtain ⟨buf₂, hstore, hbytes₂⟩ := Buffer.store_mid 45 hbytes₁
      (by rw [List.length_append, List.length_map, hs] :
        _ = s + (digitsOf b.toNat (-v).toNat).length)
    obtain ⟨c, hc⟩ : ∃ c, room.drop ((digitsOf b.toNat (-v).toNat).length + 1) =
        c :: room.drop ((digitsOf b.toNat (-v).toNat).length + 1 + 1) :=
      ⟨_, List.drop_eq_getElem_cons (by omega)⟩
    rw [hc] at hbytes₂
    have hsigned : buf₂.bytes = pre ++ ((digitsOf b.toNat (-v).toNat).map digitChar ++ [45]) ++
        c :: room.drop ((digitsOf b.toNat (-v).toNat).length + 1 + 1) := by simpa using hbytes₂
    have hsum : ((digitsOf b.toNat (-v).toNat).map digitChar ++ [45]).length =
        (digitsOf b.toNat (-v).toNat).length + 1 := by
      rw [List.length_append, List.length_map, List.length_singleton]
    obtain ⟨buf', hrun, hbytes'⟩ := turn_spec (by simp)
      (by rw [hsum]; omega) hsigned hs
    have htext : intNumeral b.toNat v.toInt =
        ((digitsOf b.toNat (-v).toNat).map digitChar ++ [45]).reverse := by
      rw [intNumeral, if_pos (slt_zero_iff.mp hneg), ← toNat_neg_of_slt hneg, numeral,
        List.reverse_append]
      rfl
    rw [htext, List.length_reverse, hsum]
    rw [hsum] at hrun
    refine ⟨buf', ?_, hbytes'⟩
    simp only [intmax_to_string, hneg, if_true]
    exact hwrite.bind (by simpa only [hstore, ok_bind] using hrun)
  · have hlen := digits_length_lt hb v
    obtain ⟨buf', hrun, hbytes'⟩ := uintmax_to_string_spec hb hmax v hbytes hs (by omega)
    have htext : intNumeral b.toNat v.toInt = numeral b.toNat v.toNat := by
      rw [intNumeral, if_neg (mt slt_zero_iff.mpr hneg), ← toNat_of_not_slt hneg, List.nil_append]
    rw [htext]
    refine ⟨buf', ?_, hbytes'⟩
    simpa only [intmax_to_string, hneg, Bool.false_eq_true, if_false, uintmax_to_string] using hrun

/-! ### What the buffer held before does not count -/

/-- The first `k` bytes are the same. -/
def Alike (k : ℕ) (buf buf' : Buffer n) : Prop := ∀ p < k, buf.load p = buf'.load p

section Alike
variable {k p : ℕ} {c : UInt8} {buf' : Buffer n}

theorem Alike.mono (h : Alike k buf buf') (hs : s ≤ k) : Alike s buf buf' :=
  fun p hp => h p (Nat.lt_of_lt_of_le hp hs)

/-- The same byte is stored at the same place. -/
theorem Alike.store (h : Alike k buf buf') (hp : p ≤ k) (c : UInt8) :
    (buf.store p c = .error .fault ∧ buf'.store p c = .error .fault) ∨
    ∃ r r', buf.store p c = .ok r ∧ buf'.store p c = .ok r' ∧ Alike (max k (p + 1)) r r' := by
  by_cases hn : p < n
  · refine Or.inr ⟨_, _, if_pos hn, if_pos hn, fun q hq => ?_⟩
    have hlen : p < buf.bytes.length ∧ p < buf'.bytes.length := by
      rw [buf.size, buf'.size]
      exact ⟨hn, hn⟩
    by_cases hqp : p = q
    · subst hqp
      simp [Buffer.load, hlen]
    · have hold := h q (by omega)
      simpa [Buffer.load, List.getElem?_set_ne hqp] using hold
  · exact Or.inl ⟨if_neg hn, if_neg hn⟩

theorem digitsLoop_alike (s : ℕ) (b : UInt8) : ∀ (fuel v i : ℕ) {buf buf' : Buffer n},
    Alike (s + i) buf buf' →
    (∃ e, digitsLoop s b fuel v buf i = .error e ∧ digitsLoop s b fuel v buf' i = .error e) ∨
    ∃ len r r', digitsLoop s b fuel v buf i = .ok (len, r) ∧
      digitsLoop s b fuel v buf' i = .ok (len, r') ∧ i < len ∧ Alike (s + len) r r' := by
  intro fuel
  induction fuel with
  | zero => exact fun v i buf buf' _ => Or.inl ⟨.fuel, rfl, rfl⟩
  | succ fuel ih =>
    intro v i buf buf' h
    by_cases hb : b = 0
    · exact Or.inl ⟨.fault, by rw [digitsLoop, if_pos hb], by rw [digitsLoop, if_pos hb]⟩
    · simp only [digitsLoop, if_neg hb]
      rcases h.store (Nat.le_refl _) (if UInt8.ofNat (v % b.toNat) < 10 then
        UInt8.ofNat (v % b.toNat) + 48 else UInt8.ofNat (v % b.toNat) - 10 + 97) with
        ⟨hfault, hfault'⟩ | ⟨r, r', hr, hr', hstored⟩
      · exact Or.inl ⟨.fault, by rw [hfault]; rfl, by rw [hfault']; rfl⟩
      · have hnext : Alike (s + (i + 1)) r r' := hstored.mono (by omega)
        rw [hr, hr', ok_bind, ok_bind]
        by_cases hv : v / b.toNat > 0
        · rw [if_pos hv, if_pos hv]
          rcases ih (v / b.toNat) (i + 1) hnext with herr | ⟨len, q, q', hq, hq', hlt, hlen⟩
          · exact Or.inl herr
          · exact Or.inr ⟨len, q, q', hq, hq', by omega, hlen⟩
        · rw [if_neg hv, if_neg hv]
          exact Or.inr ⟨i + 1, r, r', rfl, rfl, Nat.lt_succ_self i, hnext⟩

theorem reverseLoop_alike (s : ℕ) : ∀ (fuel i j : ℕ) {buf buf' : Buffer n},
    Alike k buf buf' → s + j < k →
    (∃ e, reverseLoop s fuel i j buf = .error e ∧ reverseLoop s fuel i j buf' = .error e) ∨
    ∃ r r', reverseLoop s fuel i j buf = .ok r ∧ reverseLoop s fuel i j buf' = .ok r' ∧
      Alike k r r' := by
  intro fuel
  induction fuel with
  | zero => exact fun i j buf buf' _ _ => Or.inl ⟨.fuel, rfl, rfl⟩
  | succ fuel ih =>
    intro i j buf buf' h hj
    by_cases hij : i < j
    · simp only [reverseLoop, if_pos hij, h (s + i) (by omega), h (s + j) hj]
      cases buf'.load (s + i) with
      | error e => exact Or.inl ⟨e, rfl, rfl⟩
      | ok c =>
        cases buf'.load (s + j) with
        | error e => exact Or.inl ⟨e, rfl, rfl⟩
        | ok d =>
          simp only [ok_bind]
          rcases h.store (by omega : s + i ≤ k) d with ⟨hfault, hfault'⟩ | ⟨r, r', hr, hr', hfirst⟩
          · exact Or.inl ⟨.fault, by rw [hfault]; rfl, by rw [hfault']; rfl⟩
          · rw [hr, hr', ok_bind, ok_bind]
            rcases hfirst.store (by omega : s + j ≤ max k (s + i + 1)) c with
              ⟨hfault, hfault'⟩ | ⟨q, q', hq, hq', hsecond⟩
            · exact Or.inl ⟨.fault, by rw [hfault]; rfl, by rw [hfault']; rfl⟩
            · rw [hq, hq', ok_bind, ok_bind]
              exact ih (i + 1) (j - 1) (hsecond.mono (by omega)) (by omega)
    · simp only [reverseLoop, if_neg hij]
      exact Or.inr ⟨buf, buf', rfl, rfl, h⟩

/-- What two runs in buffers that are alike come to: the same text, or the same stop. -/
def AlikeRuns (s : ℕ) (x x' : Except Stop (ℕ × Buffer n)) : Prop :=
  (∃ e, x = .error e ∧ x' = .error e) ∨
    ∃ len r r', x = .ok (len, r) ∧ x' = .ok (len, r') ∧ Alike (s + len) r r'

/-- The end of the string and its reversal. -/
theorem turn_alike {len : ℕ} (hn : n ≤ 2 ^ 64) (fuel : ℕ) (hpos : 0 < len)
    (h : Alike (s + len) buf buf') :
    AlikeRuns s
      (buf.store (s + len) 0 >>= fun buf => sio_reverse fuel buf s len >>= fun buf => .ok (len, buf))
      (buf'.store (s + len) 0 >>= fun buf =>
        sio_reverse fuel buf s len >>= fun buf => .ok (len, buf)) := by
  by_cases hroom : s + len < n
  · rcases h.store (Nat.le_refl _) 0 with ⟨hfault, -⟩ | ⟨r, r', hr, hr', hstored⟩
    · rw [Buffer.store, if_pos hroom] at hfault
      cases hfault
    have hlast : (len + (2 ^ 64 - 1)) % 2 ^ 64 = len - 1 := by omega
    rw [hr, hr', ok_bind, ok_bind, sio_reverse, sio_reverse, hlast]
    rcases reverseLoop_alike s fuel 0 (len - 1) (hstored.mono (Nat.le_max_left _ _)) (by omega) with
      ⟨e, he, he'⟩ | ⟨q, q', hq, hq', hturned⟩
    · exact Or.inl ⟨e, by rw [he]; rfl, by rw [he']; rfl⟩
    · exact Or.inr ⟨len, q, q', by rw [hq]; rfl, by rw [hq']; rfl, hturned⟩
  · exact Or.inl ⟨.fault, by rw [Buffer.store, if_neg hroom]; rfl,
      by rw [Buffer.store, if_neg hroom]; rfl⟩

theorem uintmax_alike (hn : n ≤ 2 ^ 64) (fuel : ℕ) (v : BitVec 64) (b : UInt8)
    (h : Alike s buf buf') :
    AlikeRuns s (uintmax_to_string fuel v buf s b) (uintmax_to_string fuel v buf' s b) := by
  rw [uintmax_to_string, uintmax_to_string, write_digits, write_digits]
  rcases digitsLoop_alike s b fuel v.toNat 0 h with ⟨e, he, he'⟩ | ⟨len, r, r', hr, hr', hpos, hlen⟩
  · exact Or.inl ⟨e, by rw [he]; rfl, by rw [he']; rfl⟩
  · rw [hr, hr', ok_bind, ok_bind]
    exact turn_alike hn fuel hpos hlen

theorem intmax_alike (hn : n ≤ 2 ^ 64) (fuel : ℕ) (v : BitVec 64) (b : UInt8)
    (h : Alike s buf buf') :
    AlikeRuns s (intmax_to_string fuel v buf s b) (intmax_to_string fuel v buf' s b) := by
  by_cases hneg : v.slt 0 = true
  · simp only [intmax_to_string, hneg, if_true, write_digits]
    rcases digitsLoop_alike s b fuel (-v).toNat 0 h with
      ⟨e, he, he'⟩ | ⟨len, r, r', hr, hr', hpos, hlen⟩
    · exact Or.inl ⟨e, by rw [he]; rfl, by rw [he']; rfl⟩
    · rw [hr, hr', ok_bind, ok_bind]
      rcases hlen.store (Nat.le_refl _) 45 with ⟨hfault, hfault'⟩ | ⟨q, q', hq, hq', hsigned⟩
      · exact Or.inl ⟨.fault, by rw [hfault]; rfl, by rw [hfault']; rfl⟩
      · rw [hq, hq']
        exact turn_alike hn fuel (Nat.succ_pos len) (hsigned.mono (Nat.le_max_right _ _))
  · have hsame : ∀ buf : Buffer n, intmax_to_string fuel v buf s b =
        uintmax_to_string fuel v buf s b := fun buf => by
      simp only [intmax_to_string, hneg, Bool.false_eq_true, if_false, uintmax_to_string]
    rw [hsame, hsame]
    exact uintmax_alike hn fuel v b h

/-- Where the string is, its bytes are the same. -/
theorem Alike.take (h : Alike k buf buf') : buf.bytes.take k = buf'.bytes.take k := by
  refine List.ext_getElem? fun p => ?_
  by_cases hp : p < k
  · have hload := h p hp
    rw [List.getElem?_take_of_lt hp, List.getElem?_take_of_lt hp]
    unfold Buffer.load at hload
    cases hb : buf.bytes[p]? with
    | none =>
      cases hb' : buf'.bytes[p]? with
      | none => rfl
      | some d => simp [hb, hb'] at hload
    | some c =>
      cases hb' : buf'.bytes[p]? with
      | none => simp [hb, hb'] at hload
      | some d => simpa [hb, hb'] using hload
  · rw [List.getElem?_take_eq_none (not_lt.mp hp), List.getElem?_take_eq_none (not_lt.mp hp)]

end Alike

/-! ### In the buffer of the formats -/

theorem load_untouched {buf' : Buffer n} {t room : List UInt8} (hbytes : buf.bytes = pre ++ room)
    (hbytes' : buf'.bytes = pre ++ t ++ 0 :: room.drop (t.length + 1)) {p : ℕ}
    (hp : p < pre.length ∨ pre.length + t.length < p) : buf'.load p = buf.load p := by
  have hget : buf'.bytes[p]? = buf.bytes[p]? := by
    rw [hbytes, hbytes']
    rcases hp with hp | hp
    · rw [List.append_assoc, List.getElem?_append_left hp, List.getElem?_append_left hp]
    · obtain ⟨k, rfl⟩ : ∃ k, p = pre.length + (t.length + (k + 1)) :=
        ⟨p - (pre.length + t.length + 1), by omega⟩
      rw [List.append_assoc, List.getElem?_append_right (by omega),
        List.getElem?_append_right (by omega), Nat.add_sub_cancel_left,
        List.getElem?_append_right (by omega), Nat.add_sub_cancel_left, List.getElem?_cons_succ,
        List.getElem?_drop]
      congr 1
      omega
  rw [Buffer.load, Buffer.load, hget]

/-- Behind an offset that leaves room for 66 bytes, any number in any base becomes the string that
    writes it, from which it can be read back. The other bytes of the buffer are left. -/
theorem number_strings (v : BitVec 64) (b : UInt8) (hb : 1 < b.toNat) (hmax : b.toNat ≤ 36)
    (buf : Buffer n) (s : ℕ) (hs : s + 66 ≤ n) :
    (∃ text buf', Converges (fun fuel => intmax_to_string fuel v buf s b) (text.length, buf') ∧
      buf'.string s = .ok text ∧ text = intNumeral b.toNat v.toInt ∧
      intValue b.toNat text = v.toInt ∧
      ∀ p, p < s ∨ s + text.length < p → buf'.load p = buf.load p) ∧
    ∃ text buf', Converges (fun fuel => uintmax_to_string fuel v buf s b) (text.length, buf') ∧
      buf'.string s = .ok text ∧ text = numeral b.toNat v.toNat ∧
      numeralValue b.toNat text = v.toNat ∧
      ∀ p, p < s ∨ s + text.length < p → buf'.load p = buf.load p := by
  have hlen : (buf.bytes.take s).length = s := by
    rw [List.length_take, buf.size]
    omega
  have hroom : 65 < (buf.bytes.drop s).length := by
    rw [List.length_drop, buf.size]
    omega
  have hbytes := (List.take_append_drop s buf.bytes).symm
  constructor
  · obtain ⟨buf', hrun, hbytes'⟩ := intmax_to_string_spec hb hmax v hbytes hlen hroom
    have hat : buf'.At (buf.bytes.take s) (intNumeral b.toNat v.toInt) :=
      ⟨⟨_, hbytes'⟩, intNumeral_not_nul hb hmax _⟩
    refine ⟨_, buf', hrun, ?_, rfl, intValue_intNumeral hb hmax _, fun p hp => ?_⟩
    · simpa only [hlen] using hat.string
    · exact load_untouched hbytes hbytes' (by rwa [hlen])
  · obtain ⟨buf', hrun, hbytes'⟩ := uintmax_to_string_spec hb hmax v hbytes hlen (by omega)
    have hat : buf'.At (buf.bytes.take s) (numeral b.toNat v.toNat) :=
      ⟨⟨_, hbytes'⟩, numeral_not_mem hb hmax (by decide)⟩
    refine ⟨_, buf', hrun, ?_, rfl, numeralValue_numeral hb hmax _, fun p hp => ?_⟩
    · simpa only [hlen] using hat.string
    · exact load_untouched hbytes hbytes' (by rwa [hlen])

/-- The smallest number, in base 10, behind `0x`. -/
theorem number_strings_min : (∃ text buf', Converges
      (fun fuel => intmax_to_string fuel (BitVec.intMin 64) (Buffer.strncpy 128 [48, 120]) 2 10)
      (text.length, buf') ∧ buf'.string 2 = .ok text ∧ intValue 10 text = -2 ^ 63) := by
  obtain ⟨⟨text, buf', hrun, hstring, -, hvalue, -⟩, -⟩ := number_strings (BitVec.intMin 64) 10
    (by decide) (by decide) (Buffer.strncpy 128 [48, 120]) 2 (by decide)
  exact ⟨text, buf', hrun, hstring, hvalue⟩

end Labs.Sio
