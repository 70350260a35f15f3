import SystemsLabs.Shelllab.ParselineScan

/-! @lab shelllab | file:tsh_helper.c (parseline) | structure:round trip of quoting | scheme:buffer |
    main result:parseline_unquotes

    A command written with every argument and file name in double quotes: the quotes keep white-space,
    redirection characters and single quotes, so the tokens of the line are the arguments and files
    themselves. The white-space between them is any, also none, since the quotes separate them. -/

namespace Labs.Shell
open Schemes

/-- What double quotes can hold. -/
def Quotable (s : Bytes) : Prop := 34 ∉ s ∧ 0 ∉ s

/-- The words in double quotes, each after white-space. -/
inductive Quoted : List Bytes → Bytes → Prop
  | nil : Quoted [] []
  | cons {w s words line} (hw : Blank w) (hs : Quotable s) (h : Quoted words line) :
      Quoted (s :: words) (w ++ 34 :: (s ++ 34 :: line))

/-- A redirection, when there is one: the mark and the file name in double quotes. -/
inductive Redirected (mark : UInt8) : Option Bytes → Bytes → Prop
  | absent : Redirected mark none []
  | file {w v s} (hw : Blank w) (hv : Blank v) (hs : Quotable s) :
      Redirected mark (some s) (w ++ mark :: (v ++ 34 :: (s ++ [34])))

/-- The arguments, then `< "infile"`, then `> "outfile"`. -/
inductive Renders (args : List Bytes) (infile outfile : Option Bytes) : Bytes → Prop
  | line {x y z} (hargs : Quoted args x) (hin : Redirected 60 infile y)
      (hout : Redirected 62 outfile z) : Renders args infile outfile (x ++ (y ++ z))

variable {args words : List Bytes} {infile outfile file : Option Bytes} {line rest : Bytes}
  {ts : List Lexeme} {mark : UInt8} {lex : Lexeme} {l : Line}

/-! ### The tokens of such a line -/

def redirection (lex : Lexeme) : Option Bytes → List Lexeme
  | none => []
  | some s => [lex, .word true s]

theorem Quoted.lexes (h : Quoted words line) (hrest : Lexes rest ts) :
    Lexes (line ++ rest) (words.map (.word true) ++ ts) := by
  induction h with
  | nil => exact hrest
  | cons hw hs _ ih => simpa using Lexes.quoted hw (Or.inr rfl) hs.1 ih

theorem Redirected.lexes (h : Redirected mark file line) (hrest : Lexes rest ts)
    (hmark : ∀ {w t ts}, Blank w → Lexes t ts → Lexes (w ++ mark :: t) (lex :: ts)) :
    Lexes (line ++ rest) (redirection lex file ++ ts) := by
  cases h with
  | absent => exact hrest
  | file hw hv hs => simpa [redirection] using hmark hw (.quoted hv (Or.inr rfl) hs.1 hrest)

theorem Renders.lexes (h : Renders args infile outfile line) (hrest : Lexes rest ts) :
    Lexes (line ++ rest)
      (args.map (.word true) ++ (redirection .less infile ++ (redirection .greater outfile ++ ts))) := by
  obtain ⟨hargs, hin, hout⟩ := h
  simpa using hargs.lexes (hin.lexes (hout.lexes hrest .greater) .less)

theorem Blank.nonzero {w : Bytes} (hw : Blank w) : 0 ∉ w := fun h => absurd (hw 0 h) (by decide)

theorem Quoted.nonzero (h : Quoted words line) : 0 ∉ line := by
  induction h with
  | nil => simp
  | cons hw hs _ ih => simp [hw.nonzero, hs.2, ih]

theorem Redirected.nonzero (h : Redirected mark file line) (hmark : mark ≠ 0) : 0 ∉ line := by
  cases h with
  | absent => simp
  | file hw hv hs => simp [hw.nonzero, hv.nonzero, hs.2, hmark.symm]

theorem Renders.nonzero (h : Renders args infile outfile line) : 0 ∉ line := by
  obtain ⟨hargs, hin, hout⟩ := h
  simp [hargs.nonzero, hin.nonzero (by decide), hout.nonzero (by decide)]

/-! ### What they make of the line -/

theorem scan_words (hmode : l.mode = .ST_NORMAL)
    (hroom : l.args.length + words.length < MAXARGS - 1) :
    l.scan (words.map (.word true) ++ ts) = { l with args := l.args ++ words }.scan ts := by
  induction words generalizing l with
  | nil => simp
  | cons s words ih =>
    have hrecord : l.record s = { l with args := l.args ++ [s] } := by simp [Line.record, hmode]
    rw [List.length_cons] at hroom
    rw [List.map_cons, List.cons_append, Line.scan, hrecord, if_neg (by simp; omega),
      ih (l := { l with args := l.args ++ [s] }) hmode (by simp; omega)]
    simp

theorem scan_infile (hmode : l.mode = .ST_NORMAL) (hnone : l.infile = none)
    (hroom : l.args.length < MAXARGS - 1) :
    l.scan (redirection .less infile ++ ts) = { l with infile := infile }.scan ts := by
  cases infile with
  | none => simp [redirection, ← hnone]
  | some s =>
    have hfull : ¬ MAXARGS - 1 ≤ l.args.length := by omega
    simp [redirection, Line.scan, hnone, Line.record, hfull, hmode]

theorem scan_outfile (hmode : l.mode = .ST_NORMAL) (hnone : l.outfile = none)
    (hroom : l.args.length < MAXARGS - 1) :
    l.scan (redirection .greater outfile ++ ts) = { l with outfile := outfile }.scan ts := by
  cases outfile with
  | none => simp [redirection, ← hnone]
  | some s =>
    have hfull : ¬ MAXARGS - 1 ≤ l.args.length := by omega
    simp [redirection, Line.scan, hnone, Line.record, hfull, hmode]

theorem scan_rendered (hmax : args.length < MAXARGS - 1) :
    Line.empty.scan
      (args.map (.word true) ++ (redirection .less infile ++ (redirection .greater outfile ++ ts))) =
      Line.scan ⟨args, infile, outfile, .ST_NORMAL⟩ ts := by
  rw [scan_words rfl (by simpa [Line.empty] using hmax),
    scan_infile rfl rfl (by simpa [Line.empty] using hmax),
    scan_outfile rfl rfl (by simpa [Line.empty] using hmax)]
  rfl

/-! ### The round trip -/

theorem cstr_line {n : ℕ} (h0 : 0 ∉ line) (hlen : line.length ≤ n) : (cstr line).take n = line := by
  rw [cstr_of_not_mem h0, List.take_of_length_le hlen]

theorem foreground_unquotes (verbose : Bool) (token : CmdlineTokens) (hne : args ≠ [])
    (hmax : args.length < MAXARGS - 1) (h : Renders args infile outfile line)
    (hlen : line.length ≤ MAXLINE_TSH - 1) (hlast : (args.getLast hne).head? ≠ some 38) :
    ∃ t, Converges (fun fuel => parseline verbose (some line) token fuel) ⟨.PARSELINE_FG, t, ""⟩ ∧
      t.Holds args infile outfile ∧ t.builtin = builtin_of (args.head hne) := by
  have hlex := h.lexes (.blank (w := []) (by simp [Blank]))
  rw [List.append_nil, ← cstr_line h.nonzero hlen] at hlex
  obtain ⟨p, done, hread, hrun⟩ := parseline_reads verbose token hlex (scan_rendered hmax)
  obtain ⟨t, hbuiltin, ht⟩ := hread.finish rfl (Nat.lt_of_lt_pred hmax)
    (List.head?_eq_some_head hne) (List.dropLast_append_getLast hne).symm
  rw [if_neg hlast] at ht
  exact ⟨t, hrun _ ht.1, ht.2, hbuiltin⟩

theorem background_unquotes (verbose : Bool) (token : CmdlineTokens) (hne : args ≠ [])
    (hmax : args.length < MAXARGS - 1) (h : Renders args infile outfile line)
    (hlen : (line ++ [32, 38]).length ≤ MAXLINE_TSH - 1) :
    ∃ t, Converges (fun fuel => parseline verbose (some (line ++ [32, 38])) token fuel)
        ⟨.PARSELINE_BG, t, ""⟩ ∧
      t.Holds args infile outfile ∧ t.builtin = builtin_of (args.head hne) := by
  have hlex := h.lexes
    (.last (w := [32]) (c := 38) (s := []) (by simp [Blank, delims]) (by decide) (by simp [delims]))
  have h0 : 0 ∉ line ++ [32, 38] := by simp [h.nonzero]
  rw [List.singleton_append, ← cstr_line h0 hlen] at hlex
  -- The `&` may fill the argument list; the loop has nothing left to read then either.
  have hscan : Line.scan ⟨args, infile, outfile, .ST_NORMAL⟩ [.word false [38]] =
      .ok ⟨args ++ [[38]], infile, outfile, .ST_NORMAL⟩ := by
    simp [Line.scan, Line.record]
  obtain ⟨p, done, hread, hrun⟩ :=
    parseline_reads verbose token hlex ((scan_rendered hmax).trans hscan)
  obtain ⟨t, hbuiltin, ht⟩ := hread.finish rfl (by simp; omega)
    (by rw [List.head?_append_of_ne_nil _ hne, List.head?_eq_some_head hne]) rfl
  rw [if_pos (by rfl)] at ht
  exact ⟨t, hrun _ ht.1, ht.2, hbuiltin⟩

/-- The four commands of the shell itself, each by its own name. -/
theorem builtin_of_named (command : Bytes) :
    (builtin_of command = .BUILTIN_QUIT ↔ command = str "quit") ∧
    (builtin_of command = .BUILTIN_JOBS ↔ command = str "jobs") ∧
    (builtin_of command = .BUILTIN_BG ↔ command = str "bg") ∧
    (builtin_of command = .BUILTIN_FG ↔ command = str "fg") := by
  by_cases hquit : command = str "quit"
  · subst hquit
    decide
  by_cases hjobs : command = str "jobs"
  · subst hjobs
    decide
  by_cases hbg : command = str "bg"
  · subst hbg
    decide
  by_cases hfg : command = str "fg"
  · subst hfg
    decide
  simp [builtin_of, hquit, hjobs, hbg, hfg]

/-- Parsing undoes quoting, in the foreground and, with `&` at the end, in the background; which
    command of the shell itself it is, if any, is told by the first argument. -/
theorem parseline_unquotes (verbose : Bool) (token : CmdlineTokens) (hne : args ≠ [])
    (hmax : args.length ≤ 126) (h : Renders args infile outfile line) :
    (line.length ≤ MAXLINE_TSH - 1 → (args.getLast hne).head? ≠ some 38 →
      ∃ t, Converges (fun fuel => parseline verbose (some line) token fuel) ⟨.PARSELINE_FG, t, ""⟩ ∧
        t.Holds args infile outfile ∧ t.builtin = builtin_of (args.head hne)) ∧
    ((line ++ [32, 38]).length ≤ MAXLINE_TSH - 1 →
      ∃ t, Converges (fun fuel => parseline verbose (some (line ++ [32, 38])) token fuel)
          ⟨.PARSELINE_BG, t, ""⟩ ∧
        t.Holds args infile outfile ∧ t.builtin = builtin_of (args.head hne)) ∧
    ∀ command, (builtin_of command = .BUILTIN_QUIT ↔ command = str "quit") ∧
      (builtin_of command = .BUILTIN_JOBS ↔ command = str "jobs") ∧
      (builtin_of command = .BUILTIN_BG ↔ command = str "bg") ∧
      (builtin_of command = .BUILTIN_FG ↔ command = str "fg") := by
  have hroom : args.length < MAXARGS - 1 := Nat.lt_of_le_of_lt hmax (by decide)
  exact ⟨foreground_unquotes verbose token hne hroom h,
    background_unquotes verbose token hne hroom h, builtin_of_named⟩

/-- `"ls" "a b" < "in"`, and the same in the background. -/
theorem parseline_unquotes_ls :
    (∃ t, Converges (fun fuel => parseline true
        (some [34, 108, 115, 34, 32, 34, 97, 32, 98, 34, 32, 60, 32, 34, 105, 110, 34])
        ⟨0, fun _ => none, none, none, .BUILTIN_NONE, Buffer.strncpy _ []⟩ fuel)
        ⟨.PARSELINE_FG, t, ""⟩ ∧
      t.Holds [[108, 115], [97, 32, 98]] (some [105, 110]) none ∧
      t.builtin = builtin_of [108, 115]) ∧
    ∃ t, Converges (fun fuel => parseline true
        (some [34, 108, 115, 34, 32, 34, 97, 32, 98, 34, 32, 60, 32, 34, 105, 110, 34, 32, 38])
        ⟨0, fun _ => none, none, none, .BUILTIN_NONE, Buffer.strncpy _ []⟩ fuel)
        ⟨.PARSELINE_BG, t, ""⟩ ∧
      t.Holds [[108, 115], [97, 32, 98]] (some [105, 110]) none ∧
      t.builtin = builtin_of [108, 115] := by
  have hargs : Quoted [[108, 115], [97, 32, 98]] [34, 108, 115, 34, 32, 34, 97, 32, 98, 34] :=
    .cons (w := []) (s := [108, 115]) (by simp [Blank]) ⟨by decide, by decide⟩
      (.cons (w := [32]) (s := [97, 32, 98]) (by simp [Blank, delims]) ⟨by decide, by decide⟩ .nil)
  have hin : Redirected 60 (some [105, 110]) [32, 60, 32, 34, 105, 110, 34] :=
    .file (w := [32]) (v := [32]) (by simp [Blank, delims]) (by simp [Blank, delims])
      ⟨by decide, by decide⟩
  have h := parseline_unquotes true
    ⟨0, fun _ => none, none, none, .BUILTIN_NONE, Buffer.strncpy _ []⟩ (by simp) (by decide)
    (.line hargs hin .absent)
  exact ⟨h.1 (by decide) (by decide), h.2.1 (by decide)⟩

end Labs.Shell
