import SystemsLabs.Shelllab.ParselineTokens

/-! @lab shelllab | file:tsh_helper.c (parseline) | structure:tokens of a line |
    main result:when `<`, `>` and `&` mean what they say

    The operator that waits for its file name is held in one variable. An operator that follows
    another one takes its place, so the first one is lost without an error. The background mark is
    looked for in the first character of the last argument, after the quotes are gone: a quoted `&`
    and a longer word that starts with one are taken for it too, and a line of nothing else is a
    command without a name. Both conditions are exact. -/

namespace Labs.Shell
open Schemes

variable {ts : List Lexeme} {cmdline : Bytes} {verbose : Bool} {token : CmdlineTokens}

/-! ### Redirections -/

/-- Directly after every operator stands a file name, and no operator comes twice. -/
structure WellRedirected (ts : List Lexeme) : Prop where
  named : ∀ op pre post, op.isOp = true → ts = pre ++ op :: post →
    ∃ q s rest, post = .word q s :: rest
  once : ∀ op, op.isOp = true → ts.count op ≤ 1

/-- Some operator stands directly after another. -/
def Adjacent (ts : List Lexeme) : Prop :=
  ∃ a b, a.isOp = true ∧ b.isOp = true ∧ [a, b] <:+: ts

/-- The call accepts a line only with its redirections well formed, and then finds their files. -/
def RedirectionsRight (verbose : Bool) (cmdline : Bytes) (token : CmdlineTokens) : Prop :=
  ∃ r, Converges (fun fuel => parseline verbose (some cmdline) token fuel) r ∧
    (r.ret = .PARSELINE_FG ∨ r.ret = .PARSELINE_BG →
      WellRedirected (lexemes (cstr cmdline)) ∧ ∃ infile outfile,
        Files (lexemes (cstr cmdline)) infile outfile ∧
        Option.Rel (fun q s => r.token._buf.string q = .ok s) r.token.infile infile ∧
        Option.Rel (fun q s => r.token._buf.string q = .ok s) r.token.outfile outfile) ∧
    (¬ WellRedirected (lexemes (cstr cmdline)) → r.ret = .PARSELINE_ERROR)

/-- An operator before a second one is not followed by a file name. -/
theorem Adjacent.not_well (h : Adjacent ts) : ¬ WellRedirected ts := by
  obtain ⟨a, b, ha, hb, pre, post, rfl⟩ := h
  intro hw
  obtain ⟨q, s, rest, hrest⟩ := hw.named a pre (b :: post) ha (by simp)
  rw [(List.cons.inj hrest).1] at hb
  cases hb

theorem fails_of_repeats {op : Lexeme} (hop : op.isOp = true) (h : Repeats op ts) : Fails ts := by
  rcases Lexeme.op_cases hop with rfl | rfl
  · exact Or.inr (Or.inl h)
  · exact Or.inr (Or.inr h)

/-- Where operators do not meet, the call's own errors leave only well-formed redirections. -/
theorem well_of_accepted (haccept : ¬ Rejected ts) (hadj : ¬ Adjacent ts) : WellRedirected ts := by
  have hnamed : ∀ op pre post, op.isOp = true → ts = pre ++ op :: post →
      ∃ q s rest, post = .word q s :: rest := by
    rintro op pre post hop rfl
    cases post with
    | nil => exact absurd (Or.inr ⟨op, by simp, hop⟩) haccept
    | cons x post =>
      have hx : x.isOp = false := by
        rw [Bool.eq_false_iff]
        exact fun hx => hadj ⟨op, x, hop, hx, pre, post, by simp⟩
      cases x with
      | less => cases hx
      | greater => cases hx
      | word q s => exact ⟨q, s, post, rfl⟩
      | unmatched c => exact absurd (Or.inl (Or.inl ⟨c, by simp⟩)) haccept
  refine ⟨hnamed, fun op hop => ?_⟩
  by_contra htwice
  have hmem : op ∈ ts := List.count_pos_iff.mp (by omega)
  obtain ⟨pre, post, rfl, hpre⟩ := List.eq_append_cons_of_mem hmem
  obtain ⟨q, s, rest, rfl⟩ := hnamed op pre post hop rfl
  have hagain : op ∈ rest := by
    rw [List.count_append, List.count_eq_zero.mpr hpre, List.count_cons_self] at htwice
    have hcount : 0 < (Lexeme.word q s :: rest).count op := by omega
    rcases List.mem_cons.mp (List.count_pos_iff.mp hcount) with rfl | hrest
    · cases hop
    · exact hrest
  obtain ⟨mid, post, rfl⟩ := List.append_of_mem hagain
  refine haccept (Or.inl (fails_of_repeats hop
    ⟨pre ++ op :: .word q s :: mid, post, by simp, s, q, ?_⟩))
  exact ⟨pre, mid, by simp⟩

theorem redirections_accepted (hlen : (cstr cmdline).length ≤ MAXLINE_TSH - 1)
    (hwords : wordCount (lexemes (cstr cmdline)) ≤ 126)
    (h : Rejected (lexemes (cstr cmdline)) ∨ ¬ Adjacent (lexemes (cstr cmdline))) :
    RedirectionsRight verbose cmdline token := by
  obtain ⟨r, hrun, ⟨-, hret⟩ | ⟨haccept, infile, outfile, hfiles, hacc⟩⟩ :=
    parseline_outcome verbose token hlen rfl hwords
  · refine ⟨r, hrun, fun hok => ?_, fun _ => hret⟩
    rw [hret] at hok
    rcases hok with hok | hok
    · cases hok
    · cases hok
  · have hw := well_of_accepted haccept (h.resolve_left haccept)
    refine ⟨r, hrun, fun hok => ⟨hw, infile, outfile, hfiles, ?_⟩, fun hno => absurd hw hno⟩
    rcases hacc with ⟨-, hret⟩ | ⟨front, z, -, hacc⟩
    · rw [hret] at hok
      rcases hok with hok | hok
      · cases hok
      · cases hok
    · split at hacc
      · exact ⟨hacc.2.infile, hacc.2.outfile⟩
      · exact ⟨hacc.2.infile, hacc.2.outfile⟩

theorem redirections_lost (hlen : (cstr cmdline).length ≤ MAXLINE_TSH - 1)
    (hwords : wordCount (lexemes (cstr cmdline)) ≤ 126)
    (h : RedirectionsRight verbose cmdline token) :
    Rejected (lexemes (cstr cmdline)) ∨ ¬ Adjacent (lexemes (cstr cmdline)) := by
  obtain ⟨r, hrun, -, hbad⟩ := h
  obtain ⟨r', hrun', hout⟩ := parseline_outcome verbose token hlen rfl hwords
  obtain rfl := hrun.unique hrun'
  rcases hout with ⟨hrej, -⟩ | ⟨haccept, infile, outfile, -, hacc⟩
  · exact Or.inl hrej
  · refine Or.inr fun hadj => ?_
    have hret := hbad hadj.not_well
    rcases hacc with ⟨-, hret'⟩ | ⟨front, z, -, hacc⟩
    · rw [hret'] at hret
      cases hret
    · split at hacc
      · rw [hacc.1] at hret
        cases hret
      · rw [hacc.1] at hret
        cases hret

/-- The call takes redirections exactly as they are written unless one operator stands directly after
    another on a line that is not rejected for something else. -/
theorem parseline_redirections (verbose : Bool) (token : CmdlineTokens)
    (hlen : (cstr cmdline).length ≤ MAXLINE_TSH - 1)
    (hwords : wordCount (lexemes (cstr cmdline)) ≤ 126) :
    RedirectionsRight verbose cmdline token ↔
      Rejected (lexemes (cstr cmdline)) ∨ ¬ Adjacent (lexemes (cstr cmdline)) :=
  ⟨redirections_lost hlen hwords, redirections_accepted hlen hwords⟩

/-- A token structure as `eval` has it before the call: anything, here zeros. -/
def zeroTokens : CmdlineTokens := ⟨0, fun _ => none, none, none, .BUILTIN_NONE, Buffer.strncpy _ []⟩

/-- `cat <a >b` -/
theorem parseline_redirections_cat :
    RedirectionsRight true [99, 97, 116, 32, 60, 97, 32, 62, 98] zeroTokens := by
  refine (parseline_redirections true zeroTokens (by decide) (by decide)).mpr (Or.inr ?_)
  have hts : lexemes (cstr [99, 97, 116, 32, 60, 97, 32, 62, 98]) =
      [.word false [99, 97, 116], .less, .word false [97], .greater, .word false [98]] := by decide
  rw [hts]
  rintro ⟨a, b, ha, hb, h⟩
  rcases Lexeme.op_cases ha with rfl | rfl <;> rcases Lexeme.op_cases hb with rfl | rfl <;>
    exact absurd h (by decide)

/-- `cat < < a` is run with standard input from `a`. -/
theorem operators_meet :
    ¬ RedirectionsRight true [99, 97, 116, 32, 60, 32, 60, 32, 97] zeroTokens := by
  intro h
  have hts : lexemes (cstr [99, 97, 116, 32, 60, 32, 60, 32, 97]) =
      [.word false [99, 97, 116], .less, .less, .word false [97]] := by decide
  rcases redirections_lost (by decide) (by decide) h with hrej | hadj
  · rw [hts] at hrej
    rcases hrej with hfails | ⟨op, hlast, hop⟩
    · rcases @scan_cases [.word false [99, 97, 116], .less, .less, .word false [97]] (by decide) with
        ⟨-, m, hm⟩ | ⟨hno, -⟩
      · cases hm
      · exact hno hfails
    · obtain rfl := Option.some.inj hlast
      cases hop
  · rw [hts] at hadj
    exact hadj ⟨.less, .less, rfl, rfl, by decide⟩

/-! ### The background mark -/

/-- The line is in the background exactly for a last argument `&`, which alone is taken off, and a
    command that is to be run has a name. -/
def BackgroundRight (verbose : Bool) (cmdline : Bytes) (token : CmdlineTokens) : Prop :=
  ∃ r, Converges (fun fuel => parseline verbose (some cmdline) token fuel) r ∧
    (r.ret = .PARSELINE_BG ↔ r.ret ≠ .PARSELINE_ERROR ∧
      (arguments (lexemes (cstr cmdline))).getLast? = some (false, [38])) ∧
    (r.ret = .PARSELINE_BG → ∃ front infile outfile,
      arguments (lexemes (cstr cmdline)) = front ++ [(false, [38])] ∧
      r.token.Holds (front.map Prod.snd) infile outfile) ∧
    (r.ret = .PARSELINE_FG → ∃ infile outfile,
      r.token.Holds ((arguments (lexemes (cstr cmdline))).map Prod.snd) infile outfile) ∧
    (r.ret = .PARSELINE_FG ∨ r.ret = .PARSELINE_BG → 1 ≤ r.token.argc ∧ ∃ q, r.token.arg 0 = .ok q)

/-- The last argument does not start with `&`, or it is an unquoted `&` and not the only one. -/
def PlainlyMarked (args : List (Bool × Bytes)) : Prop :=
  (∀ z, args.getLast? = some z → z.2.head? ≠ some 38) ∨
    ∃ front, front ≠ [] ∧ args = front ++ [(false, [38])]

/-- A command that is to be run has a name when some argument is left. -/
theorem CmdlineTokens.Holds.command {args : List Bytes} {infile outfile : Option Bytes}
    (h : token.Holds args infile outfile) (hne : args ≠ []) :
    1 ≤ token.argc ∧ ∃ q, token.arg 0 = .ok q := by
  obtain ⟨a, args, rfl⟩ := List.exists_cons_of_ne_nil hne
  obtain ⟨q, hq, -⟩ := h.arg (by decide : 0 < MAXARGS) (s := a) rfl
  exact ⟨by rw [h.argc]; simp, q, hq⟩

theorem background_marked (hlen : (cstr cmdline).length ≤ MAXLINE_TSH - 1)
    (hwords : wordCount (lexemes (cstr cmdline)) ≤ 126)
    (h : Rejected (lexemes (cstr cmdline)) ∨ PlainlyMarked (arguments (lexemes (cstr cmdline)))) :
    BackgroundRight verbose cmdline token := by
  obtain ⟨r, hrun, ⟨-, hret⟩ | ⟨haccept, infile, outfile, -, hacc⟩⟩ :=
    parseline_outcome verbose token hlen rfl hwords
  · exact ⟨r, hrun, by simp [hret], by simp [hret], by simp [hret], by simp [hret]⟩
  · rcases hacc with ⟨hnil, hret⟩ | ⟨front, z, hargs, hacc⟩
    · exact ⟨r, hrun, by simp [hret, hnil], by simp [hret], by simp [hret], by simp [hret]⟩
    · have hlast : (arguments (lexemes (cstr cmdline))).getLast? = some z := by rw [hargs]; simp
      have hmark := h.resolve_left haccept
      split at hacc
      · rename_i hamp
        obtain ⟨hret, hholds⟩ := hacc
        rcases hmark with hplain | ⟨front', hne, hargs'⟩
        · exact absurd hamp (hplain z hlast)
        · obtain ⟨rfl, hz⟩ := List.append_inj' (hargs.symm.trans hargs') rfl
          obtain rfl := (List.cons.inj hz).1
          have hcommand := hholds.command (by simpa using hne)
          exact ⟨r, hrun, by simp [hret, hlast], fun _ => ⟨front, infile, outfile, hargs, hholds⟩,
            by simp [hret], fun _ => hcommand⟩
      · rename_i hamp
        obtain ⟨hret, hholds⟩ := hacc
        have hz : z ≠ (false, [38]) := by rintro rfl; exact hamp rfl
        have hcommand := hholds.command (by simp)
        exact ⟨r, hrun, by simp [hret, hlast, hz], by simp [hret],
          fun _ => ⟨infile, outfile, hargs ▸ hholds⟩, fun _ => hcommand⟩

theorem background_mistaken (hlen : (cstr cmdline).length ≤ MAXLINE_TSH - 1)
    (hwords : wordCount (lexemes (cstr cmdline)) ≤ 126)
    (h : BackgroundRight verbose cmdline token) :
    Rejected (lexemes (cstr cmdline)) ∨ PlainlyMarked (arguments (lexemes (cstr cmdline))) := by
  obtain ⟨r, hrun, hbg, -, -, hcommand⟩ := h
  obtain ⟨r', hrun', hout⟩ := parseline_outcome verbose token hlen rfl hwords
  obtain rfl := hrun.unique hrun'
  rcases hout with ⟨hrej, -⟩ | ⟨-, infile, outfile, -, ⟨hnil, -⟩ | ⟨front, z, hargs, hacc⟩⟩
  · exact Or.inl hrej
  · exact Or.inr (Or.inl (by simp [hnil]))
  · refine Or.inr ?_
    split at hacc
    · obtain ⟨hret, hholds⟩ := hacc
      have hz := (hbg.mp hret).2
      rw [hargs, List.getLast?_concat] at hz
      obtain rfl := Option.some.inj hz
      refine Or.inr ⟨front, ?_, hargs⟩
      rintro rfl
      have hargc := (hcommand (Or.inr hret)).1
      rw [hholds.argc] at hargc
      cases hargc
    · rename_i hamp
      refine Or.inl fun z' hz' => ?_
      rw [hargs, List.getLast?_concat] at hz'
      obtain rfl := Option.some.inj hz'
      exact hamp

/-- The call takes a line for the background as it is written, with a command to run, unless the line
    is accepted and its last argument starts with `&` and is quoted, or longer, or the only one. -/
theorem parseline_background (verbose : Bool) (token : CmdlineTokens)
    (hlen : (cstr cmdline).length ≤ MAXLINE_TSH - 1)
    (hwords : wordCount (lexemes (cstr cmdline)) ≤ 126) :
    BackgroundRight verbose cmdline token ↔
      Rejected (lexemes (cstr cmdline)) ∨ PlainlyMarked (arguments (lexemes (cstr cmdline))) :=
  ⟨background_mistaken hlen hwords, background_marked hlen hwords⟩

/-- `ls &` -/
theorem parseline_background_ls : BackgroundRight true [108, 115, 32, 38] zeroTokens := by
  refine (parseline_background true zeroTokens (by decide) (by decide)).mpr (Or.inr (Or.inr ?_))
  exact ⟨[(false, [108, 115])], by simp, by decide⟩

/-- `echo "&"` is run in the background, without its argument. -/
theorem quoted_ampersand :
    ¬ BackgroundRight true [101, 99, 104, 111, 32, 34, 38, 34] zeroTokens := by
  intro h
  have hts : lexemes (cstr [101, 99, 104, 111, 32, 34, 38, 34]) =
      [.word false [101, 99, 104, 111], .word true [38]] := by decide
  rcases background_mistaken (by decide) (by decide) h with hrej | hplain | ⟨front, -, hargs⟩
  · rw [hts] at hrej
    rcases hrej with hfails | ⟨op, hlast, hop⟩
    · rcases @scan_cases [.word false [101, 99, 104, 111], .word true [38]] (by decide) with
        ⟨-, m, hm⟩ | ⟨hno, -⟩
      · cases hm
      · exact hno hfails
    · obtain rfl := Option.some.inj hlast
      cases hop
  · rw [hts] at hplain
    exact hplain (true, [38]) rfl rfl
  · have hlast := congrArg List.getLast? hargs
    rw [hts, List.getLast?_concat] at hlast
    cases hlast

end Labs.Shell
