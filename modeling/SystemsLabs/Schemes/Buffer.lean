import SystemsLabs.Schemes.Heap
import SystemsLabs.Schemes.Text

/-! @scheme buffer | structure:fixed-size byte buffer, pointers as offsets | used by:in-place scanners

    A `char` array of `n` bytes. A load or store outside it is a fault, and so is a string function
    whose argument does not end inside it. A scanner that cuts its input into tokens in place splits
    the buffer into what it has passed, `done`, and the text still to read: `At`. A token lies in
    `done` together with the NUL that ends it (`Kept`), so that what comes later leaves it alone. -/

namespace Schemes

structure Buffer (n : ℕ) where
  bytes : List UInt8
  size : bytes.length = n

namespace Buffer
variable {n p q : ℕ} {b : Buffer n} {c : UInt8} {s t u w rest : List UInt8}

def load (b : Buffer n) (p : ℕ) : Except Stop UInt8 :=
  match b.bytes[p]? with
  | some c => .ok c
  | none => .error .fault

def store (b : Buffer n) (p : ℕ) (c : UInt8) : Except Stop (Buffer n) :=
  if p < n then .ok ⟨b.bytes.set p c, by rw [List.length_set, b.size]⟩ else .error .fault

/-- `memcpy` to offset `p`. -/
def memcpy (b : Buffer n) (p : ℕ) (s : List UInt8) : Except Stop (Buffer n) :=
  if h : p + s.length ≤ n then
    .ok ⟨b.bytes.take p ++ s ++ b.bytes.drop (p + s.length), by simp [b.size]; omega⟩
  else .error .fault

/-- The C string at `p`. -/
def string (b : Buffer n) (p : ℕ) : Except Stop (List UInt8) :=
  if 0 ∈ b.bytes.drop p then .ok (cstr (b.bytes.drop p)) else .error .fault

def strlen (b : Buffer n) (p : ℕ) : Except Stop ℕ := do
  let s ← b.string p
  return s.length

def strspn (b : Buffer n) (p : ℕ) (accept : List UInt8) : Except Stop ℕ := do
  let s ← b.string p
  return (s.takeWhile (· ∈ accept)).length

def strcspn (b : Buffer n) (p : ℕ) (reject : List UInt8) : Except Stop ℕ := do
  let s ← b.string p
  return (s.takeWhile (· ∉ reject)).length

/-- `strchr`, for a character other than NUL. -/
def strchr (b : Buffer n) (p : ℕ) (c : UInt8) : Except Stop (Option ℕ) := do
  let s ← b.string p
  return if c ∈ s then some (p + (s.takeWhile (· ≠ c)).length) else none

/-- `strncpy` over the whole buffer: the rest is filled up with NUL. -/
def strncpy (n : ℕ) (s : List UInt8) : Buffer n :=
  ⟨(cstr s ++ List.replicate n 0).take n, by simp⟩

/-- A copy that fits lies behind what the buffer holds up to it. -/
theorem memcpy_ok (b : Buffer n) (h : p + s.length ≤ n) :
    ∃ b', b.memcpy p s = .ok b' ∧ b'.bytes.take (p + s.length) = b.bytes.take p ++ s := by
  refine ⟨_, dif_pos h, ?_⟩
  have hlen : (b.bytes.take p ++ s).length = p + s.length := by
    rw [List.length_append, List.length_take, b.size, Nat.min_eq_left (by omega)]
  exact List.take_left' hlen

/-! ### One byte between two parts -/

theorem load_mid {pre post : List UInt8} (h : b.bytes = pre ++ c :: post) (hp : pre.length = p) :
    b.load p = .ok c := by
  subst hp
  rw [load, h]
  simp

theorem store_mid {pre post : List UInt8} (d : UInt8) (h : b.bytes = pre ++ c :: post)
    (hp : pre.length = p) : ∃ b', b.store p d = .ok b' ∧ b'.bytes = pre ++ d :: post := by
  subst hp
  have hlen : pre.length < n := by
    rw [← b.size, h, List.length_append, List.length_cons]
    omega
  exact ⟨_, if_pos hlen, by simp [h]⟩

/-! ### What has been passed and what is still to read -/

/-- `done` has been passed, `s` is the string from there on. -/
def At (b : Buffer n) (done s : List UInt8) : Prop :=
  (∃ rest, b.bytes = done ++ s ++ 0 :: rest) ∧ 0 ∉ s

/-- The string `s`, NUL included, lies in `done` at `q`. -/
def Kept (done : List UInt8) (q : ℕ) (s : List UInt8) : Prop :=
  (∃ u v, done = u ++ s ++ 0 :: v ∧ u.length = q) ∧ 0 ∉ s

variable {done : List UInt8}

theorem At.string (h : b.At done s) : b.string done.length = .ok s := by
  obtain ⟨⟨rest, hb⟩, hs⟩ := h
  rw [Buffer.string, hb, List.append_assoc, List.drop_left, if_pos (by simp), cstr,
    takeWhile_ne hs]

theorem At.strlen (h : b.At done s) : b.strlen done.length = .ok s.length := by
  rw [Buffer.strlen, h.string]
  rfl

theorem At.advance (h : b.At done (u ++ s)) : b.At (done ++ u) s := by
  obtain ⟨⟨rest, hb⟩, hs⟩ := h
  exact ⟨⟨rest, by simpa using hb⟩, fun h0 => hs (List.mem_append_right _ h0)⟩

theorem At.load (h : b.At done (c :: s)) : b.load done.length = .ok c := by
  obtain ⟨⟨rest, hb⟩, -⟩ := h
  rw [Buffer.load, hb]
  simp

/-- The bytes of a string, its NUL included. -/
theorem At.load_getD (h : b.At done s) {k : ℕ} (hk : k ≤ s.length) :
    b.load (done.length + k) = .ok (s.getD k 0) := by
  obtain ⟨⟨rest, hb⟩, -⟩ := h
  rw [Buffer.load, hb, List.append_assoc, List.getElem?_append_right (by omega),
    Nat.add_sub_cancel_left]
  rcases Nat.lt_or_eq_of_le hk with hlt | rfl
  · simp [List.getElem?_append_left hlt, hlt]
  · simp

theorem At.start (h : b.At done s) : done <+: b.bytes := by
  obtain ⟨⟨rest, hb⟩, -⟩ := h
  exact ⟨s ++ 0 :: rest, by rw [hb, List.append_assoc]⟩

/-- Ending the token `s` in place of the byte after it. -/
theorem At.cut (h : b.At done (s ++ c :: t)) :
    ∃ b', b.store (done.length + s.length) 0 = .ok b' ∧ b'.At (done ++ (s ++ [0])) t := by
  obtain ⟨⟨rest, hb⟩, hs⟩ := h
  have hlen : done.length + s.length < n := by
    rw [← b.size, hb]
    simp
  exact ⟨_, if_pos hlen, ⟨rest, by simp [hb]⟩, fun h0 => hs (by simp [h0])⟩

/-- Ending the last token: its NUL is there already. -/
theorem At.cutLast (h : b.At done s) :
    ∃ b', b.store (done.length + s.length) 0 = .ok b' ∧ done ++ (s ++ [0]) <+: b'.bytes := by
  obtain ⟨⟨rest, hb⟩, -⟩ := h
  have hlen : done.length + s.length < n := by
    rw [← b.size, hb]
    simp
  exact ⟨_, if_pos hlen, rest, by simp [hb]⟩

theorem Kept.append (h : Kept done q s) : Kept (done ++ t) q s := by
  obtain ⟨⟨u, v, hd, hq⟩, hs⟩ := h
  exact ⟨⟨u, v ++ t, by simp [hd], hq⟩, hs⟩

theorem Kept.last (hs : 0 ∉ s) : Kept (done ++ (s ++ [0])) done.length s :=
  ⟨⟨done, [], by simp, rfl⟩, hs⟩

/-- A token in the part passed is read back as it was. -/
theorem Kept.at (h : Kept done q s) (hstart : done <+: b.bytes) :
    ∃ u, u.length = q ∧ b.At u s := by
  obtain ⟨⟨u, v, hd, hq⟩, hs⟩ := h
  obtain ⟨r, hr⟩ := hstart
  exact ⟨u, hq, ⟨v ++ r, by rw [← hr, hd]; simp⟩, hs⟩

theorem Kept.string (h : Kept done q s) (hstart : done <+: b.bytes) : b.string q = .ok s := by
  obtain ⟨u, rfl, hat⟩ := h.at hstart
  exact hat.string

/-- The byte that a string starts with is NUL when the string is empty. -/
theorem load_of_string (h : b.string p = .ok s) : b.load p = .ok (s.headD 0) := by
  rw [string] at h
  split_ifs at h with h0
  obtain rfl := Except.ok.inj h
  rw [load, ← Nat.add_zero p, ← List.getElem?_drop]
  cases hd : b.bytes.drop p with
  | nil => simp [hd] at h0
  | cons c r => by_cases hc : c = 0 <;> simp [cstr, hc]

theorem set_last {l : List UInt8} {k : ℕ} (h : k < l.length) :
    (l.take (k + 1)).set k c = l.take k ++ [c] := by
  rw [List.set_eq_take_append_cons_drop, if_pos (by simp; omega), List.take_take, List.drop_take]
  simp

/-- A copy whose last byte is then set to NUL is the string, cut to what the buffer has room for. -/
theorem strncpy_terminated (hn : 0 < n) :
    ∃ b, (strncpy n s).store (n - 1) 0 = .ok b ∧ b.At [] ((cstr s).take (n - 1)) := by
  obtain ⟨k, rfl⟩ := Nat.exists_eq_add_of_le' hn
  refine ⟨_, if_pos (by omega), ⟨List.replicate (k - (cstr s).length) 0, ?_⟩,
    fun h => not_mem_cstr s (List.mem_of_mem_take h)⟩
  have hpad : (cstr s ++ List.replicate (k + 1) 0).take k =
      (cstr s).take k ++ List.replicate (k - (cstr s).length) 0 := by
    rw [List.take_append, List.take_replicate]
    congr 2
    omega
  change (List.take (k + 1) _).set k 0 = _
  rw [set_last (by simp; omega), hpad, Nat.add_sub_cancel, List.nil_append, List.append_assoc,
    ← List.replicate_succ', List.replicate_succ]

end Buffer

end Schemes
