import SystemsLabs.Shelllab.ParselineQuoted
import SystemsLabs.Shelllab.ReadEval

/-! @lab shelllab | file:tsh.c (main, eval) | structure:scripts |
    main result:script_launches, failing_script_goes_on

    A script has a command on each line, with its words in quotes. The shell launches it command by
    command: what the parser reads is what was written, and no line is cut. If the script is in a file
    that can be read again, no child may exit with the input of the shell: three lines of one length
    that fail are enough for the shell to go on for ever. -/

namespace Labs.Shell.ReadEval
open Schemes Redirect
variable {env : ℕ → World} {verbose : Bool} {fds : Fds} {args : List Bytes}
  {outfile infile : Option Bytes} {line rest : Bytes} {t : CmdlineTokens} {n : ℕ}

/-- A command with its line. -/
structure Request where
  args : List Bytes
  infile : Option Bytes
  outfile : Option Bytes
  background : Bool
  line : Bytes

def Request.state (r : Request) : JobState := if r.background then .BG else .FG

/-- The line is the command with every word in double quotes, and it fits the buffer. -/
structure Request.Plain (r : Request) : Prop where
  nonempty : r.args ≠ []
  few : r.args.length ≤ 126
  external : builtin_of (r.args.head nonempty) = .BUILTIN_NONE
  unmarked : r.background = false → (r.args.getLast nonempty).head? ≠ some 38
  rendered : ∃ text, Renders r.args r.infile r.outfile text ∧
    r.line = text ++ if r.background then [32, 38] else []
  one : 10 ∉ r.line
  fits : r.line.length ≤ MAXLINE_TSH - 2

def script (rs : List Request) : Bytes := rs.flatMap fun r => r.line ++ [10]

/-- What the commands of a script come to, from line `n` on. -/
def launches (env : ℕ → World) (fds : Fds) : ℕ → List Request → List (Bytes × Event)
  | _, [] => []
  | n, r :: rs =>
    (r.line, .launched r.state r.line (child (env n) r.args r.outfile r.infile fds)) ::
      launches env fds (n + 1) rs

variable {r : Request} {rs : List Request}

theorem cut_line (h10 : 10 ∉ line) (hlen : line.length < n) :
    cut n (line ++ 10 :: rest) = some (line ++ [10], rest) := by
  rw [cut, takeWhile_ne h10, if_neg (by omega), if_pos (by simp)]
  have hcut : line ++ 10 :: rest = (line ++ [10]) ++ rest := by simp
  rw [hcut, List.take_left' (by simp), List.drop_left' (by simp)]

theorem chomp_line (h0 : 0 ∉ line) (h10 : 10 ∉ line) : chomp (line ++ [10]) = line := by
  have hnul : 0 ∉ line ++ [10] := by simp [h0]
  rw [chomp, cstr_of_not_mem hnul, takeWhile_ne h10]

theorem Request.Plain.nonzero (h : r.Plain) : 0 ∉ r.line := by
  obtain ⟨text, hrender, hline⟩ := h.rendered
  rw [hline]
  cases r.background with
  | true => simp [hrender.nonzero]
  | false => simp [hrender.nonzero]

theorem argvFrom_holds (h : t.Holds args infile outfile) (hmax : args.length < MAXARGS) : ∀ n k,
    k + n = args.length → argvFrom t n k = .ok (args.drop k) := by
  intro n
  induction n with
  | zero =>
    intro k hk
    have hle : args.length ≤ k := by omega
    rw [argvFrom, List.drop_of_length_le hle]
  | succ n ih =>
    intro k hk
    have hlt : k < args.length := by omega
    obtain ⟨q, hq, hs⟩ := h.arg (by omega) (List.getElem?_eq_getElem hlt)
    rw [argvFrom, hq, ok_bind, hs, ok_bind, ih (k + 1) (by omega), ok_bind,
      List.drop_eq_getElem_cons hlt]

theorem fileName_holds {o : Option ℕ} {o' : Option Bytes}
    (h : Option.Rel (fun q s => t._buf.string q = .ok s) o o') : fileName t o = .ok o' := by
  cases h with
  | some hs => rw [fileName, hs, ok_bind]
  | none => rfl

theorem evalToken_holds (h : t.Holds args infile outfile) (hmax : args.length < MAXARGS)
    (hbuiltin : t.builtin = .BUILTIN_NONE) (w : World) (state : JobState) (line : Bytes) (fds : Fds) :
    evalToken w state line t fds =
      .ok (.launched state line (child w args outfile infile fds), fds) := by
  have hargv : argvFrom t t.argc 0 = .ok args :=
    argvFrom_holds h hmax t.argc 0 ((Nat.zero_add _).trans h.argc)
  rw [evalToken, hargv, ok_bind, fileName_holds h.infile, ok_bind, fileName_holds h.outfile, ok_bind,
    hbuiltin]

/-- A command in quotes is launched as it is. -/
theorem Request.Plain.evaluated (h : r.Plain) (w : World) (verbose : Bool) (fds : Fds) :
    Converges (fun fuel => eval w verbose fuel r.line fds)
      (.launched r.state r.line (child w r.args r.outfile r.infile fds), fds) := by
  obtain ⟨text, hrender, hline⟩ := h.rendered
  have hroom : r.args.length < MAXARGS - 1 := Nat.lt_of_le_of_lt h.few (by decide)
  have hmax : r.args.length < MAXARGS := Nat.lt_of_lt_pred hroom
  have hfits : r.line.length ≤ MAXLINE_TSH - 1 := h.fits.trans (by decide)
  cases hback : r.background with
  | true =>
    rw [hback, if_pos rfl] at hline
    obtain ⟨t, hparse, ht, hbuiltin⟩ := background_unquotes verbose w.token h.nonempty hroom hrender
      (by rwa [← hline])
    rw [← hline] at hparse
    refine evalParsed_converges hparse ?_
    rw [Request.state, hback, if_pos rfl]
    exact evalToken_holds ht hmax (hbuiltin.trans h.external) w .BG r.line fds
  | false =>
    rw [hback, if_neg Bool.false_ne_true, List.append_nil] at hline
    obtain ⟨t, hparse, ht, hbuiltin⟩ := foreground_unquotes verbose w.token h.nonempty hroom hrender
      (by rwa [← hline]) (h.unmarked hback)
    rw [← hline] at hparse
    refine evalParsed_converges hparse ?_
    rw [Request.state, hback, if_neg Bool.false_ne_true]
    exact evalToken_holds ht hmax (hbuiltin.trans h.external) w .FG r.line fds

theorem script_course (henv : ∀ n, (env n).returns = true) (verbose broken : Bool) (fds : Fds) :
    ∀ (rs : List Request) (n : ℕ), (∀ r ∈ rs, r.Plain) →
    Course (textReader broken) env verbose fds n (script rs) (launches env fds n rs)
      (some (atEnd broken)) := by
  intro rs
  induction rs with
  | nil => exact fun n _ => .stops rfl
  | cons r rs ih =>
    intro n hall
    have hr := hall r List.mem_cons_self
    have hcut : script (r :: rs) = r.line ++ 10 :: script rs := by simp [script]
    have hfits : r.line.length < MAXLINE_TSH - 1 := Nat.lt_of_le_of_lt hr.fits (by decide)
    have hget : cut (MAXLINE_TSH - 1) (script (r :: rs)) = some (r.line ++ [10], script rs) := by
      rw [hcut]
      exact cut_line hr.one hfits
    have heval := hr.evaluated (env n) verbose fds
    have hchomp := chomp_line hr.nonzero hr.one
    have hnone : (Event.launched r.state r.line (child (env n) r.args r.outfile r.infile fds)).ending
        (env n) = none := if_pos (henv n)
    have hgoes := Course.goes (r := textReader broken) hget (by rw [hchomp]; exact heval) hnone
      (ih (n + 1) fun q hq => hall q (List.mem_cons_of_mem r hq))
    rw [hchomp] at hgoes
    exact hgoes

/-- A script of quoted commands is launched command by command, each with its own arguments, unless it
    can be read again and a child exits with it. A command is executed exactly if its files open and
    `execve` finds the program, and then it is wired to its files. -/
theorem script_launches (env : ℕ → World) (i : Input) (verbose : Bool) (rs : List Request) (fds : Fds)
    (text : Bytes) (offset : ℕ) (hin : ∃ j, fds.get STDIN_FILENO = some (.inherited j))
    (hout : (fds.get STDOUT_FILENO).isSome) (henv : ∀ n, (env n).returns = true)
    (hrs : ∀ r ∈ rs, r.Plain) (hi : i.Still text) (hscript : text.drop offset = script rs)
    (hshare : i.seekable = false ∨
      ∀ x ∈ launches env (shellFds fds) 0 rs, x.2.exitsSharing = false) :
    Converges (main env i verbose offset fds)
      ⟨launches env (shellFds fds) 0 rs, atEnd i.broken, shellFds fds⟩ ∧
    ∀ (w : World) (r : Request),
      ((∃ p, child w r.args r.outfile r.infile (shellFds fds) = .executing r.args p) ↔
        Opens w.disk r.outfile r.infile ∧
          ∃ command, r.args.head? = some command ∧ w.execve command = none) ∧
      ∀ a p, child w r.args r.outfile r.infile (shellFds fds) = .executing a p →
        a = r.args ∧ Wired (shellFds fds) p r.outfile r.infile := by
  have hin₁ : (fds.get STDIN_FILENO).isSome := by
    obtain ⟨j, hj⟩ := hin
    rw [hj]
    rfl
  have hcourse := script_course henv verbose i.broken (shellFds fds) rs 0 hrs
  rw [← hscript] at hcourse
  refine ⟨main_converges hin₁ hout (Course.of_text hi hcourse hshare), fun w r =>
    ⟨child_executes, fun a p h => child_wired ?_ ?_ h⟩⟩
  · rwa [shellFds_get (by decide)]
  · rwa [shellFds_get (by decide)]

/-! ### Scripts that fail -/

/-- A line in the buffer is read without a `read`. -/
theorem fgets_buffered {i : Input} : ∀ {line : Bytes} {n : ℕ} {s : Stdin}, 10 ∉ line → line.length < n →
    s.unread = line ++ 10 :: rest → s.fgets i n = some (line ++ [10], { s with unread := rest })
  | line, 0, _, _, hlen, _ => absurd hlen (Nat.not_lt_zero _)
  | [], n + 1, s, _, _, hunread => by
      rw [Stdin.fgets, Stdin.getc, hunread]
      rfl
  | c :: line, n + 1, s, h10, hlen, hunread => by
      obtain ⟨hc, hline⟩ := not_or.mp (mt List.mem_cons.mpr h10)
      have hrest := @fgets_buffered i line n { s with unread := line ++ 10 :: rest } hline
        (Nat.lt_of_succ_lt_succ hlen) rfl
      rw [Stdin.fgets, Stdin.getc, hunread]
      simp only [List.cons_append, if_neg (Ne.symm hc), hrest]
      rfl

/-- An empty buffer takes the whole text at once. -/
theorem fgets_refilled {i : Input} {text : Bytes} {k : ℕ} (hi : i.Still text)
    (hchunk : text.length ≤ i.chunk k + 1) (htext : text ≠ []) (n : ℕ) :
    Stdin.fgets i (n + 1) ⟨[], 0, k⟩ = Stdin.fgets i (n + 1) ⟨text, text.length, k + 1⟩ := by
  obtain ⟨c, unread, rfl⟩ := List.exists_cons_of_ne_nil htext
  have hget : Stdin.getc i ⟨[], 0, k⟩ = Stdin.getc i ⟨c :: unread, (c :: unread).length, k + 1⟩ := by
    simp only [Stdin.getc, hi.text, hi.moved, List.drop_zero, List.take_of_length_le hchunk,
      Nat.zero_add, List.length_cons]
  rw [Stdin.fgets, Stdin.fgets, hget]

theorem script_length {ℓ : ℕ} (hlen : ∀ r ∈ rs, r.line.length + 1 = ℓ) :
    (script rs).length = rs.length * ℓ := by
  induction rs with
  | nil => simp [script]
  | cons r rs ih =>
    have hr := hlen r List.mem_cons_self
    have hrest := ih fun q hq => hlen q (List.mem_cons_of_mem r hq)
    have hcut : script (r :: rs) = r.line ++ 10 :: script rs := by simp [script]
    rw [hcut, List.length_append, List.length_cons, hrest, List.length_cons, Nat.succ_mul]
    omega

/-- The last lines of the script are in the buffer, and the offset is behind the first line unless at
    most one line is left. -/
def Cycling (rs : List Request) (ℓ : ℕ) (s : Stdin) : Prop :=
  ∃ left, left <:+ rs ∧ s.unread = script left ∧ s.offset = if left.length ≤ 1 then 0 else ℓ

theorem giveBack_cycling {ℓ : ℕ} {left : List Request} {s : Stdin} (hleft : left <:+ rs)
    (hlen : ∀ r ∈ rs, r.line.length + 1 = ℓ) (hpos : 0 < ℓ) (hunread : s.unread = script left)
    (hoffset : (2 ≤ left.length ∧ s.offset = (left.length + 1) * ℓ) ∨
      s.offset = if left.length + 1 ≤ 1 then 0 else ℓ) : Cycling rs ℓ (s.giveBack true) := by
  have hback : s.unread.length = left.length * ℓ := by
    rw [hunread]
    exact script_length fun r hr => hlen r (hleft.subset hr)
  rw [Stdin.giveBack, hback]
  rcases hoffset with ⟨hmany, hoffset⟩ | hoffset
  · have hle : left.length * ℓ ≤ s.offset := by
      rw [hoffset]
      exact Nat.mul_le_mul_right ℓ (Nat.le_succ _)
    rw [if_pos (by simpa using hle)]
    refine ⟨left, hleft, hunread, ?_⟩
    change s.offset - left.length * ℓ = _
    rw [if_neg (by omega), hoffset, Nat.succ_mul, Nat.add_sub_cancel_left]
  · rcases left with _ | ⟨r, _ | ⟨q, left⟩⟩
    · exact ⟨[], hleft, by simpa using hunread, by simpa using hoffset⟩
    · rw [if_pos (by simp [hoffset])]
      exact ⟨[r], hleft, hunread, by simp [hoffset]⟩
    · have hlt : ¬ (r :: q :: left).length * ℓ ≤ s.offset := by
        rw [hoffset, if_neg (by simp), not_le, List.length_cons, List.length_cons, Nat.succ_mul,
          Nat.succ_mul]
        omega
      rw [if_neg (by simpa using hlt)]
      exact ⟨r :: q :: left, hleft, hunread, by simpa using hoffset⟩

/-- Three or more lines of one length, in a file that is read as a whole: if every child exits with the
    input of the shell, the shell evaluates them again and again. -/
theorem failing_script_goes_on {i : Input} {ℓ : ℕ} (hin : (fds.get STDIN_FILENO).isSome)
    (hout : (fds.get STDOUT_FILENO).isSome)
    (henv : ∀ n, (env n).returns = true ∧ (env n).exits = true) (hi : i.Still (script rs))
    (hchunk : ∀ k, (script rs).length ≤ i.chunk k + 1) (hseek : i.seekable = true)
    (hrs : ∀ r ∈ rs, r.Plain) (hlen : ∀ r ∈ rs, r.line.length + 1 = ℓ) (hmany : 3 ≤ rs.length)
    (hfail : ∀ n, ∀ r ∈ rs, (Event.launched r.state r.line
      (child (env n) r.args r.outfile r.infile fds)).exitsSharing = true) :
    GoesOn env i verbose 0 fds := by
  -- One line with the rest of the script behind it in the buffer.
  have hround : ∀ n r left (s : Stdin), r :: left <:+ rs → s.unread = script (r :: left) →
      ((2 ≤ left.length ∧ s.offset = (left.length + 1) * ℓ) ∨
        s.offset = if left.length + 1 ≤ 1 then 0 else ℓ) →
      ∃ piece s' event, i.reader.next s = some (piece, s') ∧
        Converges (fun fuel => eval (env n) verbose fuel (chomp piece) fds) (event, fds) ∧
        event.ending (env n) = none ∧ Cycling rs ℓ (i.reader.after (env n) event s') := by
    intro n r left s hsuffix hunread hoffset
    have hmem : r ∈ rs := hsuffix.subset List.mem_cons_self
    have hr := hrs r hmem
    have hcut : s.unread = r.line ++ 10 :: script left := by rw [hunread]; simp [script]
    have heval := hr.evaluated (env n) verbose fds
    have hafter : ∀ s' : Stdin, s'.after i (env n) (.launched r.state r.line
        (child (env n) r.args r.outfile r.infile fds)) = s'.giveBack true := by
      intro s'
      rw [Stdin.after, (henv n).2, hfail n r hmem, hseek]
      rfl
    refine ⟨r.line ++ [10], { s with unread := script left },
      .launched r.state r.line (child (env n) r.args r.outfile r.infile fds),
      fgets_buffered hr.one (Nat.lt_of_le_of_lt hr.fits (by decide)) hcut,
      by rw [chomp_line hr.nonzero hr.one]; exact heval, if_pos (henv n).1, ?_⟩
    change Cycling rs ℓ (Stdin.after i (env n) _ _)
    rw [hafter]
    exact giveBack_cycling ((List.suffix_cons r left).trans hsuffix) hlen
      (hlen r hmem ▸ Nat.succ_pos _) rfl hoffset
  refine goesOn_of_course hin hout fun k =>
    course_of_invariant (I := Cycling rs ℓ) ?_ k 0 _ ⟨[], List.nil_suffix, rfl, rfl⟩
  rintro n ⟨unread, offset, reads⟩ ⟨left, hleft, hunread, hoffset⟩
  cases left with
  | cons r left => exact hround n r left _ hleft hunread (Or.inr hoffset)
  | nil =>
    obtain ⟨r, rest, rfl⟩ : ∃ r rest, rs = r :: rest :=
      List.exists_cons_of_length_pos (Nat.lt_of_lt_of_le (by decide) hmany)
    obtain rfl : unread = [] := hunread
    obtain rfl : offset = 0 := hoffset
    have hlast : (script (r :: rest)).length = (rest.length + 1) * ℓ := script_length hlen
    have hnext := fgets_refilled hi (hchunk reads) (by simp [script]) (MAXLINE_TSH - 2)
    obtain ⟨piece, s', event, hget, hgoes⟩ := hround n r rest
      ⟨script (r :: rest), (script (r :: rest)).length, reads + 1⟩ (List.suffix_refl _) rfl
      (Or.inl ⟨Nat.le_of_succ_le_succ hmany, hlast⟩)
    exact ⟨piece, s', event, hnext.trans hget, hgoes⟩

/-- `"ls" "a b" < "in" &` -/
def lsRequest : Request where
  args := [str "ls", str "a b"]
  infile := some (str "in")
  outfile := none
  background := true
  line := str "\"ls\" \"a b\" < \"in\" &"

theorem lsRequest_plain : lsRequest.Plain where
  nonempty := by decide
  few := by decide
  external := by decide
  unmarked := by decide
  rendered := by
    have hargs : Quoted [str "ls", str "a b"] (str "\"ls\" \"a b\"") :=
      .cons (w := []) (s := str "ls") (by simp [Blank]) ⟨by decide, by decide⟩
        (.cons (w := [32]) (s := str "a b") (by simp [Blank, delims]) ⟨by decide, by decide⟩ .nil)
    have hfile : Shell.Redirected 60 (some (str "in")) (str " < \"in\"") :=
      .file (w := [32]) (v := [32]) (by simp [Blank, delims]) (by simp [Blank, delims])
        ⟨by decide, by decide⟩
    exact ⟨_, .line hargs hfile .absent, rfl⟩
  one := by decide
  fits := by decide

theorem script_launches_ls :
    Converges (main (fun _ => openWorld) (quietInput true (script [lsRequest])) true 0 terminalFds)
      ⟨launches (fun _ => openWorld) (shellFds terminalFds) 0 [lsRequest], .exit 0,
        shellFds terminalFds⟩ ∧
    ∃ p, child openWorld [str "ls", str "a b"] none (some (str "in")) (shellFds terminalFds) =
        .executing [str "ls", str "a b"] p ∧
      Wired (shellFds terminalFds) p none (some (str "in")) := by
  have hopens : Opens openWorld.disk lsRequest.outfile lsRequest.infile := by
    simp [Opens, lsRequest, openWorld, InOpens, inRefusal, afterOut]
  obtain ⟨p, hp⟩ : ∃ p, child openWorld lsRequest.args lsRequest.outfile lsRequest.infile
      (shellFds terminalFds) = .executing lsRequest.args p :=
    child_executes.mpr ⟨hopens, str "ls", rfl, rfl⟩
  have h := script_launches (fun _ => openWorld) (quietInput true (script [lsRequest])) true [lsRequest]
    terminalFds (script [lsRequest]) 0 ⟨0, rfl⟩ rfl (fun _ => rfl) (by simpa using lsRequest_plain)
    (quietInput_still true _) rfl (Or.inr (by simp [launches, hp, Event.exitsSharing]))
  exact ⟨h.1, p, hp, ((h.2 openWorld lsRequest).2 _ _ hp).2⟩

end Labs.Shell.ReadEval
