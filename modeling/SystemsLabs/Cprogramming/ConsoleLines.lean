import SystemsLabs.Cprogramming.Console

/-! @lab cprogramminglab | file:console.c (readline) | structure:lines of a text |
    main result:lines do not depend on the pieces

    What `readline` takes from a file depends on the text to come only: up to the next new line, or
    8190 characters if there is none among them, or the rest of the file. The line always ends with a
    new line, and it fits into `linebuf` together with its NUL. -/

namespace Labs.Cmdline
open Schemes
variable {ι U σ τ : Type} {e : RioEle} {k : ℕ} {line : Bytes}

/-- The text that is still to come from a file. -/
def RioEle.text (e : RioEle) : Bytes := e.buf ++ e.pieces.flatMap fun p => p.first :: p.more

/-- A line of at most `k` characters, and what is left of the text unless it has come to its end. -/
def takeLine (k : ℕ) (text : Bytes) : Option Bytes × Option Bytes :=
  let l := text.takeWhile (· ≠ 10)
  if k ≤ l.length then (some (text.take k ++ [10]), some (text.drop k))
  else if l.length < text.length then (some (l ++ [10]), some (text.drop (l.length + 1)))
  else if text = [] then (none, none)
  else (some (text ++ [10]), none)

def nextLine (text : Bytes) : Option Bytes × Option Bytes := takeLine (RIO_BUFSIZE - 2) text

theorem next_none (h : e.next = none) : e.text = [] := by
  obtain ⟨⟨fd, pieces⟩, buf⟩ := e
  cases buf with
  | cons c buf => cases h
  | nil =>
    cases pieces with
    | nil => rfl
    | cons p pieces => cases h

theorem next_some {c : UInt8} {e' : RioEle} (h : e.next = some (c, e')) :
    e.text = c :: e'.text := by
  obtain ⟨⟨fd, pieces⟩, buf⟩ := e
  cases buf with
  | cons d buf =>
    cases h
    rfl
  | nil =>
    cases pieces with
    | nil => cases h
    | cons p pieces =>
      cases h
      rfl

/-- A line grows by the characters before it. -/
theorem takeLine_cons {c : UInt8} (hc : c ≠ 10) (k : ℕ) (text : Bytes) :
    takeLine (k + 1) (c :: text) =
      (some (c :: (takeLine k text).1.getD [10]), (takeLine k text).2) := by
  have htake : (c :: text).takeWhile (· ≠ 10) = c :: text.takeWhile (· ≠ 10) :=
    List.takeWhile_cons_of_pos (by simpa using hc)
  simp only [takeLine, htake, List.length_cons, Nat.add_le_add_iff_right, Nat.add_lt_add_iff_right]
  split
  · rfl
  · split
    · rfl
    · cases text <;> rfl

theorem takeLine_stop {c : UInt8} (hc : c = 10) (k : ℕ) (text : Bytes) :
    takeLine (k + 1) (c :: text) = (some [10], some text) := by
  subst hc
  simp [takeLine]

theorem takeLine_nil (k : ℕ) : takeLine (k + 1) [] = (none, none) := by simp [takeLine]

/-- The loop takes a line from the text, behind what it has already. -/
theorem readLoop_text : ∀ (k : ℕ) (done : Bytes) (e : RioEle),
    (readLoop k done e).1 = (if done = [] then (takeLine k e.text).1
      else some (done ++ (takeLine k e.text).1.getD [10])) ∧
    (readLoop k done e).2.map RioEle.text = (takeLine k e.text).2
  | 0, done, e => by
      simp only [readLoop, takeLine, Nat.zero_le, if_true, List.take_zero, List.drop_zero]
      refine ⟨?_, rfl⟩
      split
      · rename_i hdone
        rw [hdone]
      · rfl
  | k + 1, done, e => by
      cases hnext : e.next with
      | none =>
        rw [next_none hnext, takeLine_nil]
        simp [readLoop, hnext]
      | some r =>
        obtain ⟨c, e'⟩ := r
        rw [next_some hnext]
        by_cases hc : c = 10
        · rw [takeLine_stop hc]
          simp only [readLoop, hnext, if_pos hc]
          refine ⟨?_, rfl⟩
          split
          · rename_i hdone
            rw [hdone]
            rfl
          · rfl
        · obtain ⟨hline, hrest⟩ := readLoop_text k (done ++ [c]) e'
          rw [takeLine_cons hc]
          simp only [readLoop, hnext, if_neg hc, hline, hrest, if_neg (by simp : done ++ [c] ≠ [])]
          refine ⟨?_, trivial⟩
          split
          · rename_i hdone
            rw [hdone]
            rfl
          · simp

/-- A file keeps its descriptor while it is read. -/
theorem next_fd {c : UInt8} {e' : RioEle} (h : e.next = some (c, e')) : e'.fd = e.fd := by
  obtain ⟨⟨fd, pieces⟩, buf⟩ := e
  cases buf with
  | cons d buf =>
    cases h
    rfl
  | nil =>
    cases pieces with
    | nil => cases h
    | cons p pieces =>
      cases h
      rfl

theorem readLoop_fd : ∀ {k : ℕ} {done : Bytes} {e e' : RioEle}, (readLoop k done e).2 = some e' →
    e'.fd = e.fd
  | 0, done, e, e', h => by rw [← Option.some.inj h]
  | k + 1, done, e, e', h => by
      rw [readLoop] at h
      cases hnext : e.next with
      | none => simp [hnext] at h
      | some r =>
        simp only [hnext] at h
        split at h
        · rw [← Option.some.inj h, next_fd hnext]
        · rw [readLoop_fd h, next_fd hnext]

/-- `readline` takes a line of the text that is to come. -/
theorem readline_text (e : RioEle) :
    nextLine e.text = (e.readline.1, e.readline.2.map RioEle.text) := by
  obtain ⟨hline, hrest⟩ := readLoop_text (RIO_BUFSIZE - 2) [] e
  rw [RioEle.readline, hline, hrest]
  rfl

theorem takeLine_zero (text : Bytes) : takeLine 0 text = (some [10], some text) := by
  simp [takeLine]

/-- There is no line at the end of the text only. -/
theorem takeLine_none {text : Bytes} (h : (takeLine k text).1 = none) :
    text = [] ∧ (takeLine k text).2 = none := by
  cases k with
  | zero =>
    rw [takeLine_zero] at h
    cases h
  | succ k =>
    cases text with
    | nil => exact ⟨rfl, by rw [takeLine_nil]⟩
    | cons c text =>
      by_cases hc : c = 10
      · rw [takeLine_stop hc] at h
        cases h
      · rw [takeLine_cons hc] at h
        cases h

/-- What a line is: some of the text, not more than there is room for, and a new line behind it, which
    is part of the text unless the line was cut or the text ends there. -/
theorem takeLine_some : ∀ {k : ℕ} {text l : Bytes}, (takeLine k text).1 = some l →
    ∃ l', l = l' ++ [10] ∧ 10 ∉ l' ∧ l'.length ≤ k ∧
      (text = l' ++ (takeLine k text).2.getD [] ∨ text = l ++ (takeLine k text).2.getD [])
  | 0, text, l, h => by
      rw [takeLine_zero] at h ⊢
      cases h
      exact ⟨[], rfl, List.not_mem_nil, Nat.le_refl 0, Or.inl rfl⟩
  | k + 1, [], l, h => by
      rw [takeLine_nil] at h
      cases h
  | k + 1, c :: text, l, h => by
      by_cases hc : c = 10
      · rw [takeLine_stop hc] at h ⊢
        cases h
        exact ⟨[], rfl, List.not_mem_nil, Nat.zero_le _, Or.inr (by rw [hc]; rfl)⟩
      · rw [takeLine_cons hc] at h ⊢
        cases h
        cases hline : (takeLine k text).1 with
        | none =>
          obtain ⟨rfl, hend⟩ := takeLine_none hline
          refine ⟨[c], rfl, by simpa using Ne.symm hc, by simp, Or.inl ?_⟩
          rw [hend]
          rfl
        | some l₀ =>
          obtain ⟨l', rfl, hno, hlen, hrest⟩ := takeLine_some hline
          refine ⟨c :: l', rfl, ?_, by rw [List.length_cons]; omega, ?_⟩
          · rw [List.mem_cons, not_or]
            exact ⟨Ne.symm hc, hno⟩
          · exact hrest.imp (congrArg (c :: ·)) (congrArg (c :: ·))

/-- While a line is in the buffer, `readline` reads nothing and leaves less in the buffer. -/
theorem readLoop_ready : ∀ {k : ℕ} {done : Bytes} {e : RioEle}, 10 ∈ e.buf →
    ∃ l buf, readLoop (k + 1) done e = (some l, some { e with buf := buf }) ∧
      buf.length < e.buf.length
  | k, done, ⟨file, []⟩, h => by cases h
  | k, done, ⟨file, c :: buf⟩, h => by
      by_cases hc : c = 10
      · exact ⟨done ++ [10], buf, by simp [readLoop, RioEle.next, hc], by simp⟩
      · have hbuf : 10 ∈ buf := (List.mem_cons.mp h).resolve_left (Ne.symm hc)
        have hround : readLoop (k + 1) done ⟨file, c :: buf⟩ =
            readLoop k (done ++ [c]) ⟨file, buf⟩ := by simp [readLoop, RioEle.next, hc]
        rw [hround]
        cases k with
        | zero => exact ⟨_, buf, rfl, by simp⟩
        | succ k =>
          obtain ⟨l, buf', hrun, hlen⟩ := @readLoop_ready k (done ++ [c]) ⟨file, buf⟩ hbuf
          exact ⟨l, buf', hrun, Nat.lt_succ_of_lt hlen⟩

/-- Whatever pieces a file arrives in, `readline` takes the same line from it, which ends with a new
    line, is not longer than 8191 characters and is what stood next in the file, but for a new line
    that was added at the end. At the end of the file there is no line, and the file is closed. -/
theorem readline_line (e : RioEle) :
    (e.readline.1, e.readline.2.map RioEle.text) = nextLine e.text ∧
    (e.readline.1 = none ↔ e.text = []) ∧
    (e.readline.1 = none → e.readline.2 = none) ∧
    ∀ line, e.readline.1 = some line →
      ∃ l, line = l ++ [10] ∧ 10 ∉ l ∧ line.length < RIO_BUFSIZE ∧
        (e.text = l ++ ((e.readline.2.map RioEle.text).getD []) ∨
          e.text = line ++ ((e.readline.2.map RioEle.text).getD [])) := by
  have htext := readline_text e
  have hline : e.readline.1 = (takeLine (RIO_BUFSIZE - 2) e.text).1 := (congrArg Prod.fst htext).symm
  have hrest : e.readline.2.map RioEle.text = (takeLine (RIO_BUFSIZE - 2) e.text).2 :=
    (congrArg Prod.snd htext).symm
  refine ⟨htext.symm, ⟨fun h => ?_, fun h => ?_⟩, fun h => ?_, fun line h => ?_⟩
  · exact (takeLine_none (hline.symm.trans h)).1
  · rw [hline, h, RIO_BUFSIZE, takeLine_nil]
  · have hend := (takeLine_none (hline.symm.trans h)).2
    rw [← hrest, Option.map_eq_none_iff] at hend
    exact hend
  · obtain ⟨l, hl, hno, hlen, hsplit⟩ := takeLine_some (hline.symm.trans h)
    rw [← hrest] at hsplit
    refine ⟨l, hl, hno, ?_, hsplit⟩
    rw [hl, List.length_append, List.length_singleton]
    simp only [RIO_BUFSIZE] at hlen ⊢
    omega

end Labs.Cmdline
