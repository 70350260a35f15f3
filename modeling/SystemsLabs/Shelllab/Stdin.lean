import Mathlib.Data.List.TakeWhile
import SystemsLabs.Shelllab.JobList

/-! @lab shelllab | file:tsh.c (main, its fgets) | structure:buffered standard input |
    main result:fgets_ahead, fgets_piece

    The C library reads standard input into a buffer. The offset that a read moves belongs to the open
    file, which the shell shares with its children and the programs they become, so what a read finds
    is a parameter (`Input`). A child that calls `exit` gives back what its copy of the buffer still
    holds: the library moves the offset back over it, unless the file is not seekable or the offset
    would be negative. As long as nobody moves the offset, the lines are those of the text. -/

namespace Labs.Shell.ReadEval

/-- `text n` is what the `n`-th read finds, `moved n` what others have done to the offset before it,
    and at most `chunk n + 1` bytes are read. `broken`: the input ends with an error. -/
structure Input where
  text : ℕ → Bytes
  moved : ℕ → ℕ → ℕ
  chunk : ℕ → ℕ
  seekable : Bool
  broken : Bool

/-- What is in the buffer, the offset, and the number of reads so far. -/
structure Stdin where
  unread : Bytes
  offset : ℕ
  reads : ℕ
  deriving DecidableEq, Repr

namespace Stdin

/-- `getc(stdin)`; `none`: the end of the file or an error was met. -/
def getc (i : Input) (s : Stdin) : Option (UInt8 × Stdin) :=
  match s.unread with
  | c :: unread => some (c, { s with unread := unread })
  | [] =>
    let offset := i.moved s.reads s.offset
    match ((i.text s.reads).drop offset).take (i.chunk s.reads + 1) with
    | c :: unread => some (c, ⟨unread, offset + (unread.length + 1), s.reads + 1⟩)
    | [] => none

/-- `fgets(cmdline, n + 1, stdin)`: what is read, unless the end of the file or an error was met. -/
def fgets (i : Input) : ℕ → Stdin → Option (Bytes × Stdin)
  | 0, s => some ([], s)
  | n + 1, s =>
    match s.getc i with
    | none => none
    | some (c, s) => if c = 10 then some ([c], s) else
      (fgets i n s).map fun (piece, s) => (c :: piece, s)

/-- What the `exit` of a child with the same buffer does to the offset. -/
def giveBack (seekable : Bool) (s : Stdin) : Stdin :=
  if seekable && s.unread.length ≤ s.offset then { s with offset := s.offset - s.unread.length }
  else s

end Stdin

variable {i : Input} {s s' : Stdin} {text piece rest : Bytes} {c : UInt8} {n : ℕ}

/-- `n` bytes, or fewer up to a new line; a new line is the last byte. -/
structure Piece (n : ℕ) (piece : Bytes) : Prop where
  fits : piece.length ≤ n
  one : 10 ∉ piece.dropLast
  full : piece.length = n ∨ piece.getLast? = some 10

theorem fgets_piece : ∀ {n : ℕ} {s s' : Stdin} {piece : Bytes},
    s.fgets i n = some (piece, s') → Piece n piece
  | 0, s, s', piece, h => by
      obtain ⟨rfl, -⟩ := Prod.mk.inj (Option.some.inj h)
      exact ⟨Nat.le_refl _, List.not_mem_nil, Or.inl rfl⟩
  | n + 1, s, s', piece, h => by
      rw [Stdin.fgets] at h
      cases hget : s.getc i with
      | none => simp [hget] at h
      | some got =>
        obtain ⟨c, t⟩ := got
        by_cases hc : c = 10
        · simp only [hget, if_pos hc] at h
          obtain ⟨rfl, -⟩ := Prod.mk.inj (Option.some.inj h)
          exact ⟨by simp, by simp, Or.inr (by rw [hc]; rfl)⟩
        · simp only [hget, if_neg hc, Option.map_eq_some_iff, Prod.exists, Prod.mk.injEq] at h
          obtain ⟨piece, t', hrest, rfl, -⟩ := h
          obtain ⟨hfits, hone, hfull⟩ := fgets_piece hrest
          cases piece with
          | nil =>
            have hn : 0 = n := by simpa using hfull
            exact ⟨by simp, by simp, Or.inl (congrArg (· + 1) hn)⟩
          | cons d piece =>
            refine ⟨Nat.succ_le_succ hfits, ?_, hfull.imp (congrArg _) fun hlast => by simpa using hlast⟩
            rw [List.dropLast_cons_cons, List.mem_cons, not_or]
            exact ⟨Ne.symm hc, hone⟩

/-! ### Lines of a text -/

/-- What `fgets` cuts off a text, and what is left of it. -/
def cut (n : ℕ) (text : Bytes) : Option (Bytes × Bytes) :=
  let l := text.takeWhile (· ≠ 10)
  if n ≤ l.length then some (text.take n, text.drop n)
  else if l.length < text.length then some (text.take (l.length + 1), text.drop (l.length + 1))
  else none

theorem cut_nil (n : ℕ) : cut (n + 1) [] = none := by simp [cut]

theorem cut_stop (n : ℕ) (text : Bytes) : cut (n + 1) (10 :: text) = some ([10], text) := by
  simp [cut]

theorem cut_cons (hc : c ≠ 10) (n : ℕ) (text : Bytes) :
    cut (n + 1) (c :: text) = (cut n text).map fun (piece, rest) => (c :: piece, rest) := by
  have htake : (c :: text).takeWhile (· ≠ 10) = c :: text.takeWhile (· ≠ 10) :=
    List.takeWhile_cons_of_pos (by simpa using hc)
  simp only [cut, htake, List.length_cons, Nat.add_le_add_iff_right, Nat.add_lt_add_iff_right]
  split
  · rfl
  · split <;> rfl

theorem cut_some (hn : 0 < n) (h : cut n text = some (piece, rest)) : rest.length < text.length := by
  have hle : (text.takeWhile (· ≠ 10)).length ≤ text.length :=
    (List.takeWhile_prefix _).length_le
  rw [cut] at h
  split at h
  · obtain ⟨rfl, rfl⟩ := Prod.mk.inj (Option.some.inj h)
    rw [List.length_drop]
    omega
  · split at h
    · obtain ⟨rfl, rfl⟩ := Prod.mk.inj (Option.some.inj h)
      rw [List.length_drop]
      omega
    · cases h

/-! ### Reads that go forward -/

def Stdin.left (text : Bytes) (s : Stdin) : ℕ := s.unread.length + (text.length - s.offset)

structure Input.Still (i : Input) (text : Bytes) : Prop where
  text : ∀ n, i.text n = text
  moved : ∀ n offset, i.moved n offset = offset

def Stdin.ahead (text : Bytes) (s : Stdin) : Bytes := s.unread ++ text.drop s.offset

theorem getc_ahead (hi : i.Still text) (s : Stdin) : s.ahead text =
    match s.getc i with
    | some (c, s') => c :: s'.ahead text
    | none => [] := by
  rw [Stdin.getc]
  cases hunread : s.unread with
  | cons d unread =>
    simp [Stdin.ahead, hunread]
  | nil =>
    simp only [hi.text, hi.moved]
    cases hgot : (text.drop s.offset).take (i.chunk s.reads + 1) with
    | nil =>
      have hnil : text.drop s.offset = [] := by simpa using hgot
      simp [Stdin.ahead, hunread, hnil]
    | cons d unread =>
      obtain ⟨later, hlater⟩ := List.take_prefix (i.chunk s.reads + 1) (text.drop s.offset)
      rw [hgot] at hlater
      have hdrop : text.drop (s.offset + (unread.length + 1)) = later := by
        rw [← List.drop_drop, ← hlater]
        exact List.drop_left
      simp only [Stdin.ahead, hunread, hdrop, ← hlater]
      rfl

/-- The lines are those of the text that is ahead. -/
theorem fgets_ahead (hi : i.Still text) : ∀ (n : ℕ) (s : Stdin),
    (s.fgets i n).map (fun (piece, s') => (piece, s'.ahead text)) = cut n (s.ahead text)
  | 0, s => by simp [Stdin.fgets, cut]
  | n + 1, s => by
      rw [Stdin.fgets, getc_ahead hi s]
      cases hget : s.getc i with
      | none => exact (cut_nil n).symm
      | some got =>
        obtain ⟨c, t⟩ := got
        by_cases hc : c = 10
        · simp only [hc, cut_stop]
          rfl
        · simp only [if_neg hc, cut_cons hc]
          rw [← fgets_ahead hi n t]
          cases t.fgets i n <;> rfl

end Labs.Shell.ReadEval
