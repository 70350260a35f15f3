import SystemsLabs.Shelllab.ParselineScan

/-! @lab shelllab | file:tsh_helper.c (parseline) | structure:tokens of a line |
    main result:parseline_outcome

    Every text has tokens, and what a call makes of them depends on neighbours only. A word is a file
    name when an operator stands directly before it, and an argument otherwise. A call fails on an
    unmatched quote, on an operator that comes again after its file name, and on an operator at the
    end of the line; the loop looks for nothing else. -/

namespace Labs.Shell
open Schemes

/-! ### Every text has tokens -/

/-- The tokens of a text of at most `n` characters. -/
def lexemesFrom : ℕ → Bytes → List Lexeme
  | 0, _ => []
  | n + 1, text =>
    match text.dropWhile (· ∈ delims) with
    | [] => []
    | c :: rest =>
      if c = 60 then .less :: lexemesFrom n rest
      else if c = 62 then .greater :: lexemesFrom n rest
      else if c = 39 ∨ c = 34 then
        if c ∈ rest then
          .word true (rest.takeWhile (· ≠ c)) :: lexemesFrom n (rest.dropWhile (· ≠ c)).tail
        else [.unmatched c]
      else
        .word false ((c :: rest).takeWhile (· ∉ delims)) ::
          lexemesFrom n ((c :: rest).dropWhile (· ∉ delims)).tail

def lexemes (text : Bytes) : List Lexeme := lexemesFrom text.length text

/-- A list up to the first element that fails a test. -/
theorem exists_first {α : Type} (p : α → Bool) (l : List α) : (∀ x ∈ l, p x = true) ∨
    ∃ s d t, l = s ++ d :: t ∧ p d = false ∧ ∀ x ∈ s, p x = true := by
  cases hfind : l.find? (fun x => !p x) with
  | none => exact Or.inl (by simpa using List.find?_eq_none.mp hfind)
  | some d =>
    obtain ⟨hd, s, t, rfl, hs⟩ := List.find?_eq_some_iff_append.mp hfind
    exact Or.inr ⟨s, d, t, rfl, by simpa using hd, by simpa using hs⟩

theorem lexes_lexemesFrom (n : ℕ) :
    ∀ text : Bytes, text.length ≤ n → Lexes text (lexemesFrom n text) := by
  induction n with
  | zero =>
    intro text hlen
    obtain rfl := List.eq_nil_of_length_eq_zero (Nat.le_zero.mp hlen)
    exact .blank (by simp [Blank])
  | succ n ih =>
    intro text hlen
    rcases exists_first (· ∈ delims) text with hall | ⟨w, c, rest, rfl, hc, hw⟩
    · have hnil : text.dropWhile (· ∈ delims) = [] := List.dropWhile_eq_nil_iff.mpr hall
      rw [lexemesFrom, hnil]
      exact .blank fun x hx => by simpa using hall x hx
    · have hblank : Blank w := fun x hx => by simpa using hw x hx
      have hcd : c ∉ delims := by simpa using hc
      have hdrop : (w ++ c :: rest).dropWhile (· ∈ delims) = c :: rest := by
        rw [List.dropWhile_append_of_pos hw, List.dropWhile_cons_of_neg (by simpa using hcd)]
      have hshort : rest.length ≤ n := by
        rw [List.length_append, List.length_cons] at hlen
        omega
      rw [lexemesFrom, hdrop]
      simp only
      split_ifs with hless hgreater hquote hmem
      · exact hless ▸ .less hblank (ih rest hshort)
      · exact hgreater ▸ .greater hblank (ih rest hshort)
      · obtain ⟨s, t, rfl, hs⟩ := List.eq_append_cons_of_mem hmem
        have htail : (s ++ c :: t).dropWhile (· ≠ c) = c :: t := by
          rw [List.dropWhile_append_of_pos (ne_of_not_mem hs)]
          simp
        rw [takeWhile_ne hs, htail]
        refine .quoted hblank hquote hs (ih t ?_)
        rw [List.length_append, List.length_cons] at hshort
        omega
      · exact .unmatched hblank hquote hmem
      · have hmark : c ∉ marks := by
          simp only [marks, List.mem_cons, List.not_mem_nil, or_false]
          tauto
        rcases exists_first (· ∉ delims) rest with hword | ⟨s, d, t, rfl, hd, hs⟩
        · have hall : ∀ x ∈ c :: rest, x ∉ delims := by
            intro x hx
            rcases List.mem_cons.mp hx with rfl | hx
            · exact hcd
            · simpa using hword x hx
          have hnil : (c :: rest).dropWhile (· ∉ delims) = [] :=
            List.dropWhile_eq_nil_iff.mpr fun x hx => by simpa using hall x hx
          have hend : lexemesFrom n [] = [] := by cases n <;> rfl
          rw [takeWhile_word hall, hnil, List.tail_nil, hend]
          exact .last hblank hmark hall
        · have hall : ∀ x ∈ c :: s, x ∉ delims := by
            intro x hx
            rcases List.mem_cons.mp hx with rfl | hx
            · exact hcd
            · simpa using hs x hx
          have hdelim : d ∈ delims := by simpa using hd
          have htail : (c :: (s ++ d :: t)).dropWhile (· ∉ delims) = d :: t := by
            rw [← List.cons_append, List.dropWhile_append_of_pos (by simpa using hall),
              List.dropWhile_cons_of_neg (by simpa using hdelim)]
          rw [htail, ← List.cons_append, takeWhile_word_append hall hdelim]
          refine .word hblank hmark hall hdelim (ih t ?_)
          rw [List.length_append, List.length_cons] at hshort
          omega

theorem lexes_lexemes (text : Bytes) : Lexes text (lexemes text) :=
  lexes_lexemesFrom text.length text (le_refl _)

/-! ### Operators, file names and arguments -/

def Lexeme.isOp : Lexeme → Bool
  | .less | .greater => true
  | _ => false

def Lexeme.isWord : Lexeme → Bool
  | .word _ _ => true
  | _ => false

theorem Lexeme.op_cases {t : Lexeme} (h : t.isOp = true) : t = .less ∨ t = .greater := by
  cases t with
  | less => exact Or.inl rfl
  | greater => exact Or.inr rfl
  | word q s => cases h
  | unmatched c => cases h

def wordCount (ts : List Lexeme) : ℕ := (ts.filter Lexeme.isWord).length

/-- The word `s` stands directly after an operator `op`. -/
def FileName (op : Lexeme) (s : Bytes) (ts : List Lexeme) : Prop := ∃ q, [op, .word q s] <:+: ts

/-- `op` comes again after its file name. -/
def Repeats (op : Lexeme) (ts : List Lexeme) : Prop :=
  ∃ pre post, ts = pre ++ op :: post ∧ ∃ s, FileName op s pre

/-- What makes the loop return an error. -/
def Fails (ts : List Lexeme) : Prop :=
  (∃ c, .unmatched c ∈ ts) ∨ Repeats .less ts ∨ Repeats .greater ts

/-- What makes the call an error: the loop's, or an operator at the end of the line. -/
def Rejected (ts : List Lexeme) : Prop :=
  Fails ts ∨ ∃ op, ts.getLast? = some op ∧ op.isOp = true

/-- The words that no operator stands before, quoted or not; `after`: an operator stands before
    `ts`. -/
def argumentsFrom : Bool → List Lexeme → List (Bool × Bytes)
  | _, [] => []
  | after, .word q s :: ts =>
    if after then argumentsFrom false ts else (q, s) :: argumentsFrom false ts
  | _, op :: ts => argumentsFrom op.isOp ts

def arguments (ts : List Lexeme) : List (Bool × Bytes) := argumentsFrom false ts

section Snoc
variable {ts : List Lexeme} {t op : Lexeme} {s : Bytes} {l : Line}

theorem fileName_concat : FileName op s (ts ++ [t]) ↔
    FileName op s ts ∨ ts.getLast? = some op ∧ ∃ q, t = .word q s := by
  constructor
  · rintro ⟨q, h⟩
    rcases List.infix_concat_iff.mp h with h | h
    · rcases List.suffix_concat_iff.mp h with hnil | ⟨u, hu, hlast⟩
      · cases hnil
      · obtain ⟨hfront, hback⟩ := List.append_inj' (show [op] ++ [.word q s] = _ from hu) rfl
        obtain rfl := hfront
        exact Or.inr ⟨List.singleton_suffix_iff_getLast?_eq_some.mp hlast, q,
          (List.cons.inj hback).1.symm⟩
    · exact Or.inl ⟨q, h⟩
  · rintro (⟨q, h⟩ | ⟨hlast, q, rfl⟩)
    · exact ⟨q, List.infix_concat_iff.mpr (Or.inr h)⟩
    · refine ⟨q, List.infix_concat_iff.mpr (Or.inl (List.suffix_concat_iff.mpr (Or.inr ?_)))⟩
      exact ⟨[op], rfl, List.singleton_suffix_iff_getLast?_eq_some.mpr hlast⟩

theorem repeats_concat : Repeats op (ts ++ [t]) ↔ Repeats op ts ∨ t = op ∧ ∃ s, FileName op s ts := by
  constructor
  · rintro ⟨pre, post, h, hname⟩
    rcases List.eq_nil_or_concat' post with rfl | ⟨post, x, rfl⟩
    · obtain ⟨rfl, hlast⟩ := List.append_inj' h rfl
      exact Or.inr ⟨(List.cons.inj hlast).1, hname⟩
    · rw [← List.cons_append, ← List.append_assoc] at h
      exact Or.inl ⟨pre, post, (List.append_inj' h rfl).1, hname⟩
  · rintro (⟨pre, post, rfl, hname⟩ | ⟨rfl, hname⟩)
    · exact ⟨pre, post ++ [t], by simp, hname⟩
    · exact ⟨ts, [], rfl, hname⟩

theorem fails_concat : Fails (ts ++ [t]) ↔ Fails ts ∨ (∃ c, t = .unmatched c) ∨
    t.isOp = true ∧ ∃ s, FileName t s ts := by
  rw [Fails, Fails, repeats_concat, repeats_concat]
  constructor
  · rintro (⟨c, hc⟩ | (h | ⟨rfl, h⟩) | h | ⟨rfl, h⟩)
    · rcases List.mem_append.mp hc with hc | hc
      · exact Or.inl (Or.inl ⟨c, hc⟩)
      · exact Or.inr (Or.inl ⟨c, (List.mem_singleton.mp hc).symm⟩)
    · exact Or.inl (Or.inr (Or.inl h))
    · exact Or.inr (Or.inr ⟨rfl, h⟩)
    · exact Or.inl (Or.inr (Or.inr h))
    · exact Or.inr (Or.inr ⟨rfl, h⟩)
  · rintro ((⟨c, hc⟩ | h | h) | ⟨c, rfl⟩ | ⟨hop, h⟩)
    · exact Or.inl ⟨c, List.mem_append_left _ hc⟩
    · exact Or.inr (Or.inl (Or.inl h))
    · exact Or.inr (Or.inr (Or.inl h))
    · exact Or.inl ⟨c, by simp⟩
    · rcases Lexeme.op_cases hop with rfl | rfl
      · exact Or.inr (Or.inl (Or.inr ⟨rfl, h⟩))
      · exact Or.inr (Or.inr (Or.inr ⟨rfl, h⟩))

/-- An operator stands before what comes after `ts`. -/
def pendingOp (after : Bool) (ts : List Lexeme) : Bool := (ts.getLast?.map Lexeme.isOp).getD after

theorem argumentsFrom_concat (ts : List Lexeme) (t : Lexeme) (after : Bool) :
    argumentsFrom after (ts ++ [t]) =
    argumentsFrom after ts ++ argumentsFrom (pendingOp after ts) [t] := by
  induction ts generalizing after with
  | nil => rfl
  | cons x ts ih =>
    have hpend : pendingOp after (x :: ts) = pendingOp x.isOp ts := by
      rw [pendingOp, pendingOp, List.getLast?_cons]
      cases ts.getLast? <;> rfl
    rw [hpend, List.cons_append]
    cases x with
    | word q s =>
      cases after with
      | true => exact ih false
      | false => exact congrArg (List.cons (q, s)) (ih false)
    | less => exact ih true
    | greater => exact ih true
    | unmatched c => exact ih false

theorem wordCount_concat : wordCount (ts ++ [t]) = wordCount ts + if t.isWord then 1 else 0 := by
  rw [wordCount, List.filter_append, List.length_append, wordCount]
  cases t <;> rfl

/-- The last token is read in the state the others leave. -/
theorem scan_concat (hroom : l.args.length + wordCount ts < MAXARGS - 1) :
    l.scan (ts ++ [t]) = l.scan ts >>= fun l => l.scan [t] := by
  induction ts generalizing l with
  | nil => rfl
  | cons x ts ih =>
    rw [List.cons_append]
    cases x with
    | less =>
      simp only [Line.scan]
      split
      · rfl
      · exact ih hroom
    | greater =>
      simp only [Line.scan]
      split
      · rfl
      · exact ih hroom
    | word q s =>
      have hlen : (l.record s).args.length ≤ l.args.length + 1 := by
        rw [Line.record]
        split <;> simp
      have hcount : wordCount (.word q s :: ts) = wordCount ts + 1 := rfl
      simp only [Line.scan]
      rw [if_neg (by omega), if_neg (by omega)]
      exact ih (by omega)
    | unmatched c => rfl

end Snoc

/-! ### What the loop makes of the tokens -/

def pendingState : Option Lexeme → ParseState
  | some .less => .ST_INFILE
  | some .greater => .ST_OUTFILE
  | _ => .ST_NORMAL

/-- What has been read of a line, after tokens that do not fail. -/
structure Summary (ts : List Lexeme) (l : Line) : Prop where
  args : l.args = (arguments ts).map Prod.snd
  infile : ∀ s, l.infile = some s ↔ FileName .less s ts
  outfile : ∀ s, l.outfile = some s ↔ FileName .greater s ts
  mode : l.mode = pendingState ts.getLast?
  /-- An operator is read only while its file has no name. -/
  unnamed : (l.mode = .ST_INFILE → l.infile = none) ∧ (l.mode = .ST_OUTFILE → l.outfile = none)

section Summary
variable {ts : List Lexeme} {l : Line} {q : Bool} {s : Bytes}

theorem Summary.nil : Summary [] .empty := by
  have hnone : ∀ op s, ¬ FileName op s [] := by
    rintro op s ⟨q, h⟩
    exact absurd (List.eq_nil_of_infix_nil h) (by simp)
  exact ⟨rfl, by simp [Line.empty, hnone], by simp [Line.empty, hnone], rfl, fun _ => rfl, fun _ => rfl⟩

theorem Summary.op_args {op : Lexeme} (h : Summary ts l) (hop : op.isOp = true) :
    l.args = (arguments (ts ++ [op])).map Prod.snd := by
  rw [h.args, arguments, arguments, argumentsFrom_concat]
  rcases Lexeme.op_cases hop with rfl | rfl
  · simp [argumentsFrom]
  · simp [argumentsFrom]

theorem Summary.less (h : Summary ts l) (hnone : l.infile = none) :
    Summary (ts ++ [.less]) { l with mode := .ST_INFILE } :=
  ⟨h.op_args rfl, fun s => by simpa [fileName_concat] using h.infile s,
    fun s => by simpa [fileName_concat] using h.outfile s, by simp [pendingState],
    fun _ => hnone, fun hmode => by cases hmode⟩

theorem Summary.greater (h : Summary ts l) (hnone : l.outfile = none) :
    Summary (ts ++ [.greater]) { l with mode := .ST_OUTFILE } :=
  ⟨h.op_args rfl, fun s => by simpa [fileName_concat] using h.infile s,
    fun s => by simpa [fileName_concat] using h.outfile s, by simp [pendingState],
    (fun hmode => by cases hmode), fun _ => hnone⟩

/-- The parsing state tells which operator the last token is. -/
theorem Summary.last (h : Summary ts l) :
    (l.mode = .ST_NORMAL ∧ ts.getLast? ≠ some .less ∧ ts.getLast? ≠ some .greater) ∨
    (l.mode = .ST_INFILE ∧ ts.getLast? = some .less) ∨
    (l.mode = .ST_OUTFILE ∧ ts.getLast? = some .greater) := by
  have hmode := h.mode
  rcases hlast : ts.getLast? with _ | t
  · exact Or.inl ⟨by rw [hmode, hlast]; rfl, by simp, by simp⟩
  · rw [hlast] at hmode
    cases t with
    | less => exact Or.inr (Or.inl ⟨hmode, rfl⟩)
    | greater => exact Or.inr (Or.inr ⟨hmode, rfl⟩)
    | word q s => exact Or.inl ⟨hmode, by simp, by simp⟩
    | unmatched c => exact Or.inl ⟨hmode, by simp, by simp⟩

theorem Summary.normal_iff (h : Summary ts l) :
    l.mode = .ST_NORMAL ↔ ¬ ∃ op, ts.getLast? = some op ∧ op.isOp = true := by
  rcases h.last with ⟨hmode, hless, hgreater⟩ | ⟨hmode, hlast⟩ | ⟨hmode, hlast⟩
  · refine ⟨fun _ => ?_, fun _ => hmode⟩
    rintro ⟨op, hlast, hop⟩
    rcases Lexeme.op_cases hop with rfl | rfl
    · exact hless hlast
    · exact hgreater hlast
  · refine ⟨fun hn => ?_, fun hn => absurd ⟨.less, hlast, rfl⟩ hn⟩
    rw [hmode] at hn
    cases hn
  · refine ⟨fun hn => ?_, fun hn => absurd ⟨.greater, hlast, rfl⟩ hn⟩
    rw [hmode] at hn
    cases hn

theorem Summary.word (h : Summary ts l) : Summary (ts ++ [.word q s]) (l.record s) := by
  have harg := argumentsFrom_concat ts (.word q s) false
  have hend : pendingState (ts ++ [Lexeme.word q s]).getLast? = .ST_NORMAL := by
    simp [pendingState]
  rcases h.last with ⟨hmode, hless, hgreater⟩ | ⟨hmode, hlast⟩ | ⟨hmode, hlast⟩
  · have hpend : pendingOp false ts = false := by
      have hn := h.normal_iff.mp hmode
      rw [pendingOp]
      cases hl : ts.getLast? with
      | none => rfl
      | some t => simpa using fun hop => hn ⟨t, hl, hop⟩
    simp only [Line.record, hmode]
    refine ⟨?_, fun s' => ?_, fun s' => ?_, hend.symm, ?_, ?_⟩
    · rw [arguments, harg, hpend, List.map_append, ← arguments, h.args]
      rfl
    · simpa [fileName_concat, hless] using h.infile s'
    · simpa [fileName_concat, hgreater] using h.outfile s'
    · exact fun hm => by cases hm
    · exact fun hm => by cases hm
  · have hnone := h.unnamed.1 hmode
    simp only [Line.record, hmode]
    refine ⟨?_, fun s' => ?_, fun s' => ?_, hend.symm, ?_, ?_⟩
    · rw [arguments, harg, pendingOp, hlast]
      simpa [Lexeme.isOp, argumentsFrom, arguments] using h.args
    · have hold : ¬ FileName .less s' ts := by
        rw [← h.infile, hnone]
        simp
      simp [fileName_concat, hlast, hold]
    · simpa [fileName_concat, hlast] using h.outfile s'
    · exact fun hm => by cases hm
    · exact fun hm => by cases hm
  · have hnone := h.unnamed.2 hmode
    simp only [Line.record, hmode]
    refine ⟨?_, fun s' => ?_, fun s' => ?_, hend.symm, ?_, ?_⟩
    · rw [arguments, harg, pendingOp, hlast]
      simpa [Lexeme.isOp, argumentsFrom, arguments] using h.args
    · simpa [fileName_concat, hlast] using h.infile s'
    · have hold : ¬ FileName .greater s' ts := by
        rw [← h.outfile, hnone]
        simp
      simp [fileName_concat, hlast, hold]
    · exact fun hm => by cases hm
    · exact fun hm => by cases hm

/-- The loop reads the tokens as their neighbours say, or fails on one. -/
theorem scan_cases (hroom : wordCount ts < MAXARGS - 1) :
    (Fails ts ∧ ∃ m, Line.empty.scan ts = .error m) ∨
    (¬ Fails ts ∧ ∃ l, Line.empty.scan ts = .ok l ∧ Summary ts l) := by
  induction ts using List.reverseRecOn with
  | nil =>
    refine Or.inr ⟨?_, .empty, rfl, .nil⟩
    rintro (⟨c, hc⟩ | ⟨pre, post, h, -⟩ | ⟨pre, post, h, -⟩)
    · cases hc
    · simp at h
    · simp at h
  | append_singleton ts t ih =>
    rw [wordCount_concat] at hroom
    have hscan : Line.empty.scan (ts ++ [t]) = Line.empty.scan ts >>= fun l => l.scan [t] :=
      scan_concat (l := .empty) (by simp [Line.empty]; omega)
    rcases ih (by omega) with ⟨hfails, m, hm⟩ | ⟨hfails, l, hl, hsum⟩
    · exact Or.inl ⟨fails_concat.mpr (Or.inl hfails), m, by rw [hscan, hm]; rfl⟩
    · have hscan' : Line.empty.scan (ts ++ [t]) = l.scan [t] := by rw [hscan, hl]; rfl
      rw [hscan', fails_concat]
      cases t with
      | less =>
        rcases hfile : l.infile with _ | s
        · have hno : ¬ ∃ s, FileName .less s ts := by
            rintro ⟨s, hs⟩
            rw [← hsum.infile, hfile] at hs
            cases hs
          refine Or.inr ⟨by simp [hfails, hno], _, ?_, hsum.less hfile⟩
          simp [Line.scan, hfile]
        · refine Or.inl ⟨Or.inr (Or.inr ⟨rfl, s, (hsum.infile s).mp hfile⟩), ambiguous, ?_⟩
          simp [Line.scan, hfile]
      | greater =>
        rcases hfile : l.outfile with _ | s
        · have hno : ¬ ∃ s, FileName .greater s ts := by
            rintro ⟨s, hs⟩
            rw [← hsum.outfile, hfile] at hs
            cases hs
          refine Or.inr ⟨by simp [hfails, hno], _, ?_, hsum.greater hfile⟩
          simp [Line.scan, hfile]
        · refine Or.inl ⟨Or.inr (Or.inr ⟨rfl, s, (hsum.outfile s).mp hfile⟩), ambiguous, ?_⟩
          simp [Line.scan, hfile]
      | word q s =>
        refine Or.inr ⟨by simp [hfails, Lexeme.isOp], _, ?_, hsum.word (q := q)⟩
        simp [Line.scan]
      | unmatched c => exact Or.inl ⟨Or.inr (Or.inl ⟨c, rfl⟩), _, rfl⟩

end Summary

/-! ### What the call returns -/

/-- The redirections of a line: each file is the name after its operator, if there is one. -/
structure Files (ts : List Lexeme) (infile outfile : Option Bytes) : Prop where
  infile : ∀ s, infile = some s ↔ FileName .less s ts
  outfile : ∀ s, outfile = some s ↔ FileName .greater s ts

/-- Tokens that are not rejected: an empty line, or a command, in the background when its last
    argument starts with `&`. -/
def Accepted (ts : List Lexeme) (r : Parsed) (infile outfile : Option Bytes) : Prop :=
  (arguments ts = [] ∧ r.ret = .PARSELINE_EMPTY) ∨ ∃ front z, arguments ts = front ++ [z] ∧
    if z.2.head? = some 38 then
      r.ret = .PARSELINE_BG ∧ r.token.Holds (front.map Prod.snd) infile outfile
    else r.ret = .PARSELINE_FG ∧ r.token.Holds ((front ++ [z]).map Prod.snd) infile outfile

section Outcome
variable {ts : List Lexeme} {l : Line} {p : Parse} {done cmdline : Bytes}

theorem length_argumentsFrom (ts : List Lexeme) (after : Bool) :
    (argumentsFrom after ts).length ≤ wordCount ts := by
  induction ts generalizing after with
  | nil => exact Nat.zero_le _
  | cons x ts ih =>
    cases x with
    | word q s =>
      have hcount : wordCount (.word q s :: ts) = wordCount ts + 1 := rfl
      have hrest := ih false
      cases after with
      | true =>
        change (argumentsFrom false ts).length ≤ _
        omega
      | false =>
        change (argumentsFrom false ts).length + 1 ≤ _
        omega
    | less => exact ih true
    | greater => exact ih true
    | unmatched c => exact ih false

theorem Reads.finish_pending (h : Reads done p l) (hmode : l.mode ≠ .ST_NORMAL) :
    p.finish =
      .ok ⟨.PARSELINE_ERROR, p.token, "Error: must provide file name for redirection\n"⟩ := by
  rw [Parse.finish, if_pos (by rwa [h.mode])]

theorem Reads.finish_empty (h : Reads done p l) (hmode : l.mode = .ST_NORMAL) (hargs : l.args = []) :
    ∃ t, p.finish = .ok ⟨.PARSELINE_EMPTY, t, ""⟩ := by
  obtain ⟨t, hset, ht⟩ := h.close (by rw [hargs]; decide)
  have hzero : t.argc = 0 := by rw [ht.argc, hargs]; rfl
  refine ⟨t, ?_⟩
  rw [Parse.finish, if_neg (by simp [h.mode, hmode]), hset, ok_bind, if_pos hzero]
  rfl

/-- A call on a line with room for all its words ends, as an error exactly on rejected tokens. -/
theorem parseline_outcome (verbose : Bool) (token : CmdlineTokens)
    (hlen : (cstr cmdline).length ≤ MAXLINE_TSH - 1) (hts : lexemes (cstr cmdline) = ts)
    (hwords : wordCount ts ≤ 126) :
    ∃ r, Converges (fun fuel => parseline verbose (some cmdline) token fuel) r ∧
      ((Rejected ts ∧ r.ret = .PARSELINE_ERROR) ∨
        (¬ Rejected ts ∧ ∃ infile outfile, Files ts infile outfile ∧
          Accepted ts r infile outfile)) := by
  have hlex : Lexes ((cstr cmdline).take (MAXLINE_TSH - 1)) ts := by
    rw [List.take_of_length_le hlen, ← hts]
    exact lexes_lexemes _
  have hroom : wordCount ts < MAXARGS - 1 := Nat.lt_of_le_of_lt hwords (by decide)
  rcases scan_cases hroom with ⟨hfails, m, hscan⟩ | ⟨hfails, l, hscan, hsum⟩
  · obtain ⟨t, hrun⟩ := parseline_fails verbose token hlex hscan
    exact ⟨_, hrun, Or.inl ⟨Or.inl hfails, rfl⟩⟩
  · obtain ⟨p, done, hread, hrun⟩ := parseline_reads verbose token hlex hscan
    rcases em (l.mode = .ST_NORMAL) with hmode | hmode
    · have haccept : ¬ Rejected ts := not_or.mpr ⟨hfails, hsum.normal_iff.mp hmode⟩
      rcases List.eq_nil_or_concat' (arguments ts) with hnil | ⟨front, z, hargs⟩
      · obtain ⟨t, hfin⟩ := hread.finish_empty hmode (by rw [hsum.args, hnil]; rfl)
        exact ⟨_, hrun _ hfin, Or.inr ⟨haccept, l.infile, l.outfile, ⟨hsum.infile, hsum.outfile⟩,
          Or.inl ⟨hnil, rfl⟩⟩⟩
      · have hl : l.args = front.map Prod.snd ++ [z.2] := by rw [hsum.args, hargs]; simp
        have hfull : l.args.length < MAXARGS := by
          have hle := length_argumentsFrom ts false
          rw [hsum.args, List.length_map]
          exact Nat.lt_of_le_of_lt hle (Nat.lt_of_lt_pred hroom)
        obtain ⟨a, ha⟩ : ∃ a, l.args.head? = some a := by
          rw [hl]
          cases front with
          | nil => exact ⟨_, rfl⟩
          | cons b front => exact ⟨_, rfl⟩
        obtain ⟨t, -, hfin⟩ := hread.finish hmode hfull ha hl
        rcases em (z.2.head? = some 38) with hbg | hfg
        · rw [if_pos hbg] at hfin
          refine ⟨_, hrun _ hfin.1, Or.inr ⟨haccept, l.infile, l.outfile,
            ⟨hsum.infile, hsum.outfile⟩, Or.inr ⟨front, z, hargs, ?_⟩⟩⟩
          rw [if_pos hbg]
          exact ⟨rfl, hfin.2⟩
        · rw [if_neg hfg] at hfin
          refine ⟨_, hrun _ hfin.1, Or.inr ⟨haccept, l.infile, l.outfile,
            ⟨hsum.infile, hsum.outfile⟩, Or.inr ⟨front, z, hargs, ?_⟩⟩⟩
          rw [if_neg hfg, ← hargs, ← hsum.args]
          exact ⟨rfl, hfin.2⟩
    · exact ⟨_, hrun _ (hread.finish_pending hmode),
        Or.inl ⟨Or.inr (not_not.mp (mt hsum.normal_iff.mpr hmode)), rfl⟩⟩

end Outcome

end Labs.Shell
