import Mathlib.Data.List.Basic
import Mathlib.Tactic.Common

/-! @lab proxylab | file:csapp.c (rio package) | structure:buffered reader | main result:line reads

    Buffered reading from a descriptor. What `read` will return is a list of events: some bytes, an
    interruption (`EINTR`), or another error; after the last event every `read` returns 0. Reads
    depend only on the bytes that arrive before the first error (`Rio.bytes`), and on whether there
    is one (`Rio.Broken`), not on how the bytes are cut into pieces or how often a `read` is
    interrupted. -/

namespace Labs.Http

/-- One `read` that does not find the end of file. -/
inductive ReadEv where
  | data (first : UInt8) (more : List UInt8)
  | eintr
  | error
  deriving DecidableEq, Repr

/-- `rio_t`: the unread bytes of the internal buffer, and what the descriptor will deliver. -/
structure Rio where
  buf : List UInt8
  input : List ReadEv
  deriving DecidableEq, Repr

def rio_readinitb (input : List ReadEv) : Rio := ⟨[], input⟩

/-- Refill the empty buffer, and copy at most `n` bytes out. `none`: error; nothing: end of file. -/
def refill (n : ℕ) : List ReadEv → Option (List UInt8) × Rio
  | [] => (some [], ⟨[], []⟩)
  | .eintr :: input => refill n input
  | .error :: input => (none, ⟨[], input⟩)
  | .data c cs :: input => (some ((c :: cs).take n), ⟨(c :: cs).drop n, input⟩)

def rio_read (r : Rio) (n : ℕ) : Option (List UInt8) × Rio :=
  match r.buf with
  | [] => refill n r.input
  | c :: cs => (some ((c :: cs).take n), ⟨(c :: cs).drop n, r.input⟩)

/-- Outcome of a line read: the terminated line; end of file with nothing stored; an error after
    some bytes were stored without terminator. -/
inductive Line where
  | line (bytes : List UInt8)
  | eof
  | error (bytes : List UInt8)
  deriving DecidableEq, Repr

/-- The loop of `rio_readlineb` with room for `k` more bytes after `done`. -/
def readLoop : ℕ → List UInt8 → Rio → Line × Rio
  | 0, done, r => (.line done, r)
  | k + 1, done, r =>
    match rio_read r 1 with
    | (some (c :: _), r) => if c = 10 then (.line (done ++ [c]), r) else readLoop k (done ++ [c]) r
    | (some [], r) => if done = [] then (.eof, r) else (.line done, r)
    | (none, r) => (.error done, r)

def rio_readlineb (r : Rio) (maxlen : ℕ) : Line × Rio := readLoop (maxlen - 1) [] r

/-- Up to `n` bytes, fewer at the end of file only. `none`: error. -/
def rio_readnb : ℕ → Rio → Option (List UInt8) × Rio
  | 0, r => (some [], r)
  | n + 1, r =>
    match rio_read r (n + 1) with
    | (some (c :: cs), r) =>
      let (rest, r) := rio_readnb (n - cs.length) r
      (rest.map (c :: cs ++ ·), r)
    | (some [], r) => (some [], r)
    | (none, r) => (none, r)

/-! ### Reads see the bytes, not the pieces -/

/-- What arrives before the first error. -/
def incoming : List ReadEv → List UInt8
  | [] => []
  | .eintr :: input => incoming input
  | .error :: _ => []
  | .data c cs :: input => c :: cs ++ incoming input

/-- A text that arrives in one piece. -/
def arriving : List UInt8 → List ReadEv
  | [] => []
  | c :: cs => [.data c cs]

theorem incoming_arriving : ∀ text : List UInt8, incoming (arriving text) = text
  | [] => rfl
  | _ :: _ => List.append_nil _

def Rio.bytes (r : Rio) : List UInt8 := r.buf ++ incoming r.input

/-- An error other than `EINTR` is still to come. -/
def Rio.Broken (r : Rio) : Prop := .error ∈ r.input

instance (r : Rio) : Decidable r.Broken := inferInstanceAs (Decidable (_ ∈ _))

/-- What `rio_read` does with room for `n + 1` bytes: some of the bytes to come, the end of file, or
    the error. -/
inductive ReadCase (r : Rio) (n : ℕ) : Option (List UInt8) × Rio → Prop
  | some (c : UInt8) (cs : List UInt8) (r' : Rio) (hbytes : r.bytes = c :: cs ++ r'.bytes)
      (hlen : cs.length ≤ n) (hbroken : r'.Broken ↔ r.Broken) : ReadCase r n (some (c :: cs), r')
  | eof (r' : Rio) (hnil : r.bytes = []) (hwhole : ¬ r.Broken) (hnil' : r'.bytes = [])
      (hwhole' : ¬ r'.Broken) : ReadCase r n (some [], r')
  | error (r' : Rio) (hnil : r.bytes = []) (hbroken : r.Broken) : ReadCase r n (none, r')

theorem refill_cases (n : ℕ) : ∀ input, ReadCase ⟨[], input⟩ n (refill (n + 1) input)
  | [] => .eof _ rfl (by simp [Rio.Broken]) rfl (by simp [Rio.Broken])
  | .eintr :: input => by
      rw [refill]
      have hsame : ∀ x, ReadCase ⟨[], input⟩ n x → ReadCase ⟨[], .eintr :: input⟩ n x := by
        rintro _ (⟨c, cs, r', hbytes, hlen, hbroken⟩ | ⟨r', hnil, hwhole, hnil', hwhole'⟩ |
          ⟨r', hnil, hbroken⟩)
        · exact .some c cs r' hbytes hlen (by simpa [Rio.Broken] using hbroken)
        · exact .eof r' hnil (by simpa [Rio.Broken] using hwhole) hnil' hwhole'
        · exact .error r' hnil (by simpa [Rio.Broken] using hbroken)
      exact hsame _ (refill_cases n input)
  | .error :: input => .error _ rfl (by simp [Rio.Broken])
  | .data c cs :: input =>
      .some c (cs.take n) ⟨cs.drop n, input⟩
        (by simp [Rio.bytes, incoming, ← List.append_assoc (cs.take n)]) (List.length_take_le n cs)
        (by simp [Rio.Broken])

theorem rio_read_cases (r : Rio) (n : ℕ) : ReadCase r n (rio_read r (n + 1)) := by
  obtain ⟨buf, input⟩ := r
  cases buf with
  | nil => exact refill_cases n input
  | cons c cs =>
    exact .some c (cs.take n) ⟨cs.drop n, input⟩
      (by simp [Rio.bytes, ← List.append_assoc (cs.take n)]) (List.length_take_le n cs) Iff.rfl

/-- A read of `n` bytes gets them, or all there are, unless the error comes first. -/
theorem rio_readnb_some (n : ℕ) : ∀ {r : Rio}, (n ≤ r.bytes.length ∨ ¬ r.Broken) →
    ∃ r', rio_readnb n r = (some (r.bytes.take n), r') ∧ r'.bytes = r.bytes.drop n ∧
      (r'.Broken ↔ r.Broken) := by
  induction n using Nat.strongRecOn with
  | _ n ih =>
    intro r h
    cases n with
    | zero => exact ⟨r, by rw [rio_readnb]; rfl, rfl, Iff.rfl⟩
    | succ n =>
      rw [rio_readnb]
      rcases hread : rio_read r (n + 1) with ⟨got, r₁⟩
      rcases hread ▸ rio_read_cases r n with
        ⟨c, cs, _, hbytes, hlen, hbroken⟩ | ⟨_, hnil, hwhole, hnil', hwhole'⟩ | ⟨_, hnil, hbroken⟩
      · have hrest : n - cs.length ≤ r₁.bytes.length ∨ ¬ r₁.Broken := by
          rw [hbytes, ← hbroken, List.length_append, List.length_cons] at h
          exact h.imp_left fun hle => by omega
        obtain ⟨r', hrun, hdrop, hsame⟩ := ih (n - cs.length) (by omega) hrest
        refine ⟨r', ?_, ?_, hsame.trans hbroken⟩
        · simp only [hrun, hbytes, List.cons_append, List.take_succ_cons, List.take_append,
            List.take_of_length_le hlen, Option.map_some]
        · rw [hdrop, hbytes, List.cons_append, List.drop_succ_cons, List.drop_append,
            List.drop_of_length_le hlen, List.nil_append]
      · exact ⟨r₁, by simp [hnil], by simp [hnil, hnil'], iff_of_false hwhole' hwhole⟩
      · rw [hnil] at h
        exact absurd hbroken (h.resolve_left (by simp))

/-- An error before the `n`-th byte loses what was read of them. -/
theorem rio_readnb_none (n : ℕ) : ∀ {r : Rio}, r.bytes.length < n → r.Broken →
    ∃ r', rio_readnb n r = (none, r') := by
  induction n using Nat.strongRecOn with
  | _ n ih =>
    intro r hlt hb
    cases n with
    | zero => exact absurd hlt (Nat.not_lt_zero _)
    | succ n =>
      rw [rio_readnb]
      rcases hread : rio_read r (n + 1) with ⟨got, r₁⟩
      rcases hread ▸ rio_read_cases r n with
        ⟨c, cs, _, hbytes, hlen, hbroken⟩ | ⟨_, hnil, hwhole, -, -⟩ | ⟨_, hnil, hbroken⟩
      · rw [hbytes, List.length_append, List.length_cons] at hlt
        obtain ⟨r', hrun⟩ := ih (n - cs.length) (by omega) (by omega) (hbroken.mpr hb)
        exact ⟨r', by simp only [hrun]; rfl⟩
      · exact absurd hb hwhole
      · exact ⟨r₁, rfl⟩

theorem refill_one {c : UInt8} {rest : List UInt8} : ∀ {input : List ReadEv},
    incoming input = c :: rest → ∃ r, refill 1 input = (some [c], r) ∧ r.bytes = rest
  | [], h => by cases h
  | .eintr :: input, h => by
      rw [incoming] at h
      rw [refill]
      exact refill_one h
  | .error :: input, h => by cases h
  | .data d ds :: input, h => by
      rw [incoming, List.cons_append] at h
      obtain ⟨rfl, rfl⟩ := List.cons.inj h
      exact ⟨⟨ds, input⟩, rfl, rfl⟩

theorem rio_read_one {r : Rio} {c : UInt8} {rest : List UInt8} (h : r.bytes = c :: rest) :
    ∃ r', rio_read r 1 = (some [c], r') ∧ r'.bytes = rest := by
  obtain ⟨buf, input⟩ := r
  cases buf with
  | nil => exact refill_one h
  | cons d ds =>
    rw [Rio.bytes, List.cons_append] at h
    obtain ⟨rfl, rfl⟩ := List.cons.inj h
    exact ⟨⟨ds, input⟩, rfl, rfl⟩

/-- A line is read up to its end, or as far as there is room. -/
theorem readLoop_line {l rest : List UInt8} : ∀ {k : ℕ} (done : List UInt8) {r : Rio},
    r.bytes = l ++ 10 :: rest → 10 ∉ l →
    ∃ r', readLoop k done r = (.line (done ++ (l ++ [10]).take k), r') ∧
      r'.bytes = (l ++ [10]).drop k ++ rest := by
  induction l with
  | nil =>
    intro k done r h _
    cases k with
    | zero => exact ⟨r, by rw [readLoop, List.take_zero, List.append_nil], h⟩
    | succ k =>
      obtain ⟨r', hread, hrest⟩ := rio_read_one h
      refine ⟨r', ?_, by simpa using hrest⟩
      rw [readLoop, hread]
      simp
  | cons c l ih =>
    intro k done r h hl
    cases k with
    | zero => exact ⟨r, by rw [readLoop, List.take_zero, List.append_nil], by simpa using h⟩
    | succ k =>
      rw [List.mem_cons, not_or] at hl
      obtain ⟨r₁, hread, hrest⟩ := rio_read_one h
      obtain ⟨r', hloop, hrest'⟩ := @ih k (done ++ [c]) r₁ hrest hl.2
      refine ⟨r', ?_, hrest'⟩
      rw [readLoop, hread]
      simp only
      rw [if_neg (Ne.symm hl.1), hloop, List.append_assoc]
      rfl

theorem rio_readlineb_take {r : Rio} {l rest : List UInt8} (maxlen : ℕ)
    (h : r.bytes = l ++ 10 :: rest) (hl : 10 ∉ l) :
    ∃ r', rio_readlineb r maxlen = (.line ((l ++ [10]).take (maxlen - 1)), r') ∧
      r'.bytes = (l ++ [10]).drop (maxlen - 1) ++ rest :=
  readLoop_line [] h hl

/-- A line that fits is read whole, and the next read starts behind it. -/
theorem rio_readlineb_line {r : Rio} {l rest : List UInt8} {maxlen : ℕ}
    (h : r.bytes = l ++ 10 :: rest) (hl : 10 ∉ l) (hlen : l.length + 1 < maxlen) :
    ∃ r', rio_readlineb r maxlen = (.line (l ++ [10]), r') ∧ r'.bytes = rest := by
  have hroom : (l ++ [10]).length ≤ maxlen - 1 := by
    rw [List.length_append, List.length_singleton]
    omega
  obtain ⟨r', hread, hrest⟩ := rio_readlineb_take maxlen h hl
  rw [List.take_of_length_le hroom] at hread
  rw [List.drop_of_length_le hroom, List.nil_append] at hrest
  exact ⟨r', hread, hrest⟩

/-- A line is never empty, and it is what the reader has moved on by. -/
theorem readLoop_split : ∀ {k : ℕ} {done bytes : List UInt8} {r r' : Rio},
    readLoop k done r = (.line bytes, r') → (done ≠ [] ∨ 0 < k) →
    bytes ≠ [] ∧ ∃ t, bytes = done ++ t ∧ r.bytes = t ++ r'.bytes := by
  intro k
  induction k with
  | zero =>
    intro done bytes r r' h hpos
    rw [readLoop] at h
    obtain ⟨hline, rfl⟩ := Prod.mk.inj h
    obtain rfl := Line.line.inj hline
    exact ⟨hpos.resolve_right (Nat.lt_irrefl 0), [], (List.append_nil _).symm, rfl⟩
  | succ k ih =>
    intro done bytes r r' h _
    rw [readLoop] at h
    rcases hread : rio_read r 1 with ⟨got, r₁⟩
    rw [hread] at h
    rcases hread ▸ rio_read_cases r 0 with
      ⟨c, cs, _, hbytes, hlen, -⟩ | ⟨_, hnil, -, hnil', -⟩ | ⟨_, hnil, -⟩
    · obtain rfl := List.length_eq_zero_iff.mp (Nat.le_zero.mp hlen)
      simp only at h
      split at h
      · obtain ⟨hline, rfl⟩ := Prod.mk.inj h
        obtain rfl := Line.line.inj hline
        exact ⟨by simp, [c], rfl, hbytes⟩
      · obtain ⟨hne, t, rfl, ht⟩ := ih h (Or.inl (by simp))
        exact ⟨hne, c :: t, by simp, by rw [hbytes, ht]; rfl⟩
    · simp only at h
      split at h
      · cases h
      · rename_i hne
        obtain ⟨hline, rfl⟩ := Prod.mk.inj h
        obtain rfl := Line.line.inj hline
        exact ⟨hne, [], (List.append_nil _).symm, by rw [hnil, hnil']; rfl⟩
    · cases h

theorem rio_readlineb_split {r r' : Rio} {bytes : List UInt8} {maxlen : ℕ} (hmax : 1 < maxlen)
    (h : rio_readlineb r maxlen = (.line bytes, r')) :
    bytes ≠ [] ∧ r.bytes = bytes ++ r'.bytes := by
  obtain ⟨hne, t, rfl, ht⟩ := readLoop_split h (Or.inr (by omega))
  exact ⟨hne, ht⟩

end Labs.Http
