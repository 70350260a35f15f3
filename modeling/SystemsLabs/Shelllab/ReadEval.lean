import SystemsLabs.Schemes.Loop
import SystemsLabs.Shelllab.ParselineSafe
import SystemsLabs.Shelllab.Redirection
import SystemsLabs.Shelllab.Stdin
import SystemsLabs.Shelllab.Tsh

/-! @lab shelllab | file:tsh.c (main, eval) | structure:read/eval loop | scheme:descriptors, buffer |
    main result:main_evaluates

    The shell reads lines with `fgets`, as much of a line as its buffer holds at a time, and evaluates
    each. What the system has at the time of a line is a parameter (`World`): the disk, the answer of
    `execve`, what the token structure of `eval` holds at first, whether the job list and the wait for a
    job let the shell go on, and whether a child that exits has done so by then. A `fork` succeeds, and
    what is printed is left out. A last line without its new line is not evaluated, since `fgets` meets
    the end of the file in it. A child that exits with the standard input of the shell moves its offset
    back, and lines that have been read may be read again, so the shell may never come to the end of a
    file. Every line comes to a command that the shell with its handlers takes (`Launches.taken`,
    `Event.followed`). -/

namespace Labs.Shell.ReadEval
open Schemes Redirect

abbrev Fds := Descriptors Descr

def STDERR_FILENO : ℕ := 2

/-- The string in `cmdline` up to its new line. -/
def chomp (piece : Bytes) : Bytes := (cstr piece).takeWhile (· ≠ 10)

/-- `returns`: no call on the job list aborts, in a handler neither, and no wait lasts for ever.
    `exits`: a child that calls `exit` has come through it before the next line is read. -/
structure World where
  disk : Disk
  execve : Bytes → Option Errno
  token : CmdlineTokens
  returns : Bool
  exits : Bool

/-- How a child ends up: in the new program, or in `exit`. -/
inductive ChildEnd where
  | executing (argv : List Bytes) (p : Process)
  | exited (p : Process)

/-- The child; without arguments `argv[0]` is `NULL`, and `execve` fails. -/
def child (w : World) (argv : List Bytes) (outfile infile : Option Bytes) (fds : Fds) : ChildEnd :=
  match Redirect.redirection outfile infile ⟨fds, w.disk, fun _ => []⟩ with
  | .error p => .exited p
  | .ok p =>
    match argv with
    | [] => .exited p
    | command :: _ =>
      match w.execve command with
      | some e => .exited (complain e command p)
      | none => .executing argv p

/-- The standard input is still what the shell has. -/
def sharesStdin (p : Process) : Bool :=
  match p.fds.get STDIN_FILENO with
  | some (.inherited _) => true
  | _ => false

inductive Event where
  | nothing
  | launched (state : JobState) (cmdline : Bytes) (child : ChildEnd)
  | backFore (backg : Bool) (arg : Option Bytes)
  /-- `list_jobs` on standard output. -/
  | listed (output : Option Descr)
  /-- `list_jobs` on what the new descriptor refers to, and whether it could be closed. -/
  | listedTo (output : Option Descr) (closed : Bool)
  | unlisted
  | quit

/-- How the shell ends; `stuck` if the job list aborts or a wait lasts for ever. -/
inductive Ending where
  | exit (status : ℕ)
  | stuck
  deriving DecidableEq, Repr

def Event.ending (w : World) : Event → Option Ending
  | .nothing => none
  | .unlisted => none
  | .quit => some (.exit 0)
  | .launched .. => if w.returns then none else some .stuck
  | .backFore .. => if w.returns then none else some .stuck
  | .listed _ => if w.returns then none else some .stuck
  | .listedTo _ closed =>
    if w.returns then if closed then none else some (.exit 0) else some .stuck

/-- `n` arguments from the `k`-th on. -/
def argvFrom (t : CmdlineTokens) : ℕ → ℕ → Except Stop (List Bytes)
  | 0, _ => .ok []
  | n + 1, k => do
    let s ← t._buf.string (← t.arg k)
    let rest ← argvFrom t n (k + 1)
    .ok (s :: rest)

def fileName (t : CmdlineTokens) : Option ℕ → Except Stop (Option Bytes)
  | none => .ok none
  | some q => do
    let s ← t._buf.string q
    .ok (some s)

/-- `jobs` -/
def evalJobs (w : World) (outfile : Option Bytes) (fds : Fds) : Event × Fds :=
  match outfile with
  | none => (.listed (fds.get STDOUT_FILENO), fds)
  | some file =>
    match Process.openOut ⟨fds, w.disk, fun _ => []⟩ file with
    | .error _ => (.unlisted, fds)
    | .ok p => (.listedTo (p.fds.get fds.lowest) (w.disk.closes true file), p.fds.close fds.lowest)

/-- The `if`s over `token.builtin`. -/
def evalToken (w : World) (state : JobState) (cmdline : Bytes) (t : CmdlineTokens) (fds : Fds) :
    Except Stop (Event × Fds) := do
  let argv ← argvFrom t t.argc 0
  let infile ← fileName t t.infile
  let outfile ← fileName t t.outfile
  match t.builtin with
  | .BUILTIN_NONE => .ok (.launched state cmdline (child w argv outfile infile fds), fds)
  | .BUILTIN_QUIT => .ok (.quit, fds)
  | .BUILTIN_BG => .ok (.backFore true argv[1]?, fds)
  | .BUILTIN_FG => .ok (.backFore false argv[1]?, fds)
  | .BUILTIN_JOBS => .ok (evalJobs w outfile fds)

/-- `eval` behind the parser. -/
def evalParsed (w : World) (cmdline : Bytes) (parsed : Parsed) (fds : Fds) :
    Except Stop (Event × Fds) :=
  match parsed.ret with
  | .PARSELINE_ERROR => .ok (.nothing, fds)
  | .PARSELINE_EMPTY => .ok (.nothing, fds)
  | .PARSELINE_FG => evalToken w .FG cmdline parsed.token fds
  | .PARSELINE_BG => evalToken w .BG cmdline parsed.token fds

def eval (w : World) (verbose : Bool) (fuel : ℕ) (cmdline : Bytes) (fds : Fds) :
    Except Stop (Event × Fds) := do
  let parsed ← parseline verbose (some cmdline) w.token fuel
  evalParsed w cmdline parsed fds

/-- A child has called `exit` with the standard input of the shell. -/
def Event.exitsSharing : Event → Bool
  | .launched _ _ (.exited p) => sharesStdin p
  | _ => false

/-- Standard input when the next line is read. -/
def Stdin.after (i : Input) (w : World) (event : Event) (s : Stdin) : Stdin :=
  if w.exits && event.exitsSharing then s.giveBack i.seekable else s

/-- The lines evaluated and what came of them, and the descriptors at the end. -/
structure Run where
  events : List (Bytes × Event)
  ending : Ending
  fds : Fds

/-- How the shell ends at the end of its input. -/
def atEnd (broken : Bool) : Ending := .exit (if broken then 1 else 0)

/-- The loop of `main` from line `n` on. -/
def mainLoop (env : ℕ → World) (i : Input) (verbose : Bool) (fuel : ℕ) :
    ℕ → ℕ → Stdin → Fds → Except Stop Run
  | 0, _, _, _ => .error .fuel
  | rounds + 1, n, s, fds =>
    if (fds.get STDIN_FILENO).isNone then .ok ⟨[], .exit 1, fds⟩
    else
      match s.fgets i (MAXLINE_TSH - 1) with
      | none => .ok ⟨[], atEnd i.broken, fds⟩
      | some (piece, s) => do
        let (event, fds) ← eval (env n) verbose fuel (chomp piece) fds
        match event.ending (env n) with
        | some ending => .ok ⟨[(chomp piece, event)], ending, fds⟩
        | none => do
          let run ← mainLoop env i verbose fuel rounds (n + 1) (s.after i (env n) event) fds
          .ok { run with events := (chomp piece, event) :: run.events }

/-- `main` behind its options; standard error is made the same as standard output first. -/
def main (env : ℕ → World) (i : Input) (verbose : Bool) (offset : ℕ) (fds : Fds) (fuel : ℕ) :
    Except Stop Run :=
  if (fds.get STDOUT_FILENO).isSome then
    mainLoop env i verbose fuel fuel 0 ⟨[], offset, 0⟩ (fds.dup2 STDOUT_FILENO STDERR_FILENO)
  else .ok ⟨[], .exit 1, fds⟩

variable {w : World} {env : ℕ → World} {i : Input} {verbose broken : Bool} {fds : Fds} {p : Process}
  {argv a : List Bytes} {outfile infile : Option Bytes} {line text : Bytes} {t : CmdlineTokens}
  {event : Event} {s : Stdin} {k n offset : ℕ}

/-! ### The child -/

/-- The files are the standard input and output, and the rest is that of the shell. -/
structure Wired (fds : Fds) (p : Process) (outfile infile : Option Bytes) : Prop where
  input : p.fds.get STDIN_FILENO =
    (infile.map fun file => .reading (p.disk.file file)).or (fds.get STDIN_FILENO)
  output : p.fds.get STDOUT_FILENO =
    (outfile.map fun file => .writing (p.disk.file file)).or (fds.get STDOUT_FILENO)
  others : ∀ k, STDOUT_FILENO < k → p.fds.get k = fds.get k

theorem wired_of_redirected {q : Process} (hin : (q.fds.get STDIN_FILENO).isSome)
    (hout : (q.fds.get STDOUT_FILENO).isSome) (h : Redirect.Redirected q p outfile infile) :
    Wired q.fds p outfile infile := by
  have hfile : p.disk.file = q.disk.file := by
    rw [h.disk]
    cases outfile <;> rfl
  refine ⟨?_, ?_, h.others⟩
  · rw [h.input, hfile]
    cases infile with
    | none => rfl
    | some file => simp [hin]
  · have hnot : (q.fds.get STDOUT_FILENO).isNone = false := by
      rw [Option.isNone_eq_false_iff]
      exact hout
    rw [h.output, hfile]
    cases outfile with
    | none => rfl
    | some file => simp [hnot]

/-- When a program is executed, and in which process. -/
theorem child_executing : child w argv outfile infile fds = .executing a p ↔
    Opens w.disk outfile infile ∧ (∃ command, argv.head? = some command ∧ w.execve command = none) ∧
      a = argv ∧ p = afterIn (between ⟨fds, w.disk, fun _ => []⟩ outfile) infile := by
  by_cases hopens : Opens w.disk outfile infile
  · rw [child, redirection_ok hopens]
    cases argv with
    | nil => simp
    | cons command argv =>
      cases hexec : w.execve command with
      | some e => simp [hexec]
      | none =>
        simp only [hopens, hexec, ChildEnd.executing.injEq, true_and, List.head?_cons,
          Option.some.injEq, exists_eq_left', eq_comm]
  · obtain ⟨q, hq⟩ := redirection_fails (p := ⟨fds, w.disk, fun _ => []⟩) hopens
    rw [child, hq]
    simp [hopens]

theorem child_wired (hin : (fds.get STDIN_FILENO).isSome) (hout : (fds.get STDOUT_FILENO).isSome)
    (h : child w argv outfile infile fds = .executing a p) :
    a = argv ∧ Wired fds p outfile infile := by
  obtain ⟨-, -, ha, rfl⟩ := child_executing.mp h
  exact ⟨ha, wired_of_redirected hin hout (redirected ⟨fds, w.disk, fun _ => []⟩ outfile infile)⟩

theorem child_executes : (∃ p, child w argv outfile infile fds = .executing argv p) ↔
    Opens w.disk outfile infile ∧ ∃ command, argv.head? = some command ∧ w.execve command = none := by
  simp [child_executing]

/-! ### One line -/

/-- The file that `jobs` writes to leaves no descriptor behind. -/
theorem evalJobs_fds (w : World) (outfile : Option Bytes) (fds : Fds) :
    (evalJobs w outfile fds).2 = fds := by
  cases outfile with
  | none => rfl
  | some file =>
    simp only [evalJobs, Process.openOut]
    cases w.disk.refusal true file with
    | some e => rfl
    | none => exact fds.close_install _

theorem argvFrom_safe (h : t.Safe) (hargc : t.argc ≤ MAXARGS - 1) : ∀ n k, k + n ≤ t.argc →
    ∃ l, argvFrom t n k = .ok l := by
  intro n
  induction n with
  | zero => exact fun k _ => ⟨[], rfl⟩
  | succ n ih =>
    intro k hk
    have hmax : k < MAXARGS := by omega
    have hlt : k < t.argc := by omega
    obtain ⟨q, hq⟩ := Option.isSome_iff_exists.mp (h.argv ⟨k, hmax⟩ hlt)
    obtain ⟨s, hs, -⟩ := h.inside (.argv ⟨k, hmax⟩) q (by rw [CmdlineTokens.pointer, if_pos hlt, hq])
    have harg : t.arg k = .ok q := by rw [CmdlineTokens.arg, dif_pos hmax, hq]
    obtain ⟨l, hl⟩ := ih (k + 1) (by omega)
    exact ⟨s :: l, by rw [argvFrom, harg, ok_bind, hs, ok_bind, hl, ok_bind]⟩

theorem fileName_safe {o : Option ℕ} (h : ∀ q, o = some q → ∃ s, t._buf.string q = .ok s) :
    ∃ name, fileName t o = .ok name := by
  cases o with
  | none => exact ⟨none, rfl⟩
  | some q =>
    obtain ⟨s, hs⟩ := h q rfl
    exact ⟨some s, by rw [fileName, hs, ok_bind]⟩

/-- What an event says of the child that it has launched. -/
def Launches (fds : Fds) (line : Bytes) (event : Event) : Prop :=
  ∀ state cmdline c, event = .launched state cmdline c → (state = .FG ∨ state = .BG) ∧
    cmdline = line ∧ ∀ a p, c = .executing a p → ∃ outfile infile, Wired fds p outfile infile

theorem launches_other (h : ∀ state cmdline c, event ≠ .launched state cmdline c) :
    Launches fds line event := fun _ _ _ heq => absurd heq (h _ _ _)

theorem evalToken_safe (hin : (fds.get STDIN_FILENO).isSome) (hout : (fds.get STDOUT_FILENO).isSome)
    (h : t.Safe) (hargc : t.argc ≤ MAXARGS - 1) (w : World) (line : Bytes) {state : JobState}
    (hstate : state = .FG ∨ state = .BG) :
    ∃ event, evalToken w state line t fds = .ok (event, fds) ∧ Launches fds line event := by
  obtain ⟨argv, hargv⟩ := argvFrom_safe h hargc t.argc 0 (Nat.le_of_eq (Nat.zero_add _))
  obtain ⟨infile, hinfile⟩ := @fileName_safe t t.infile fun q hq =>
    (h.inside .infile q hq).imp fun _ hs => hs.1
  obtain ⟨outfile, houtfile⟩ := @fileName_safe t t.outfile fun q hq =>
    (h.inside .outfile q hq).imp fun _ hs => hs.1
  rw [evalToken, hargv, ok_bind, hinfile, ok_bind, houtfile, ok_bind]
  cases t.builtin with
  | BUILTIN_NONE =>
    refine ⟨_, rfl, fun state' cmdline c heq => ?_⟩
    simp only [Event.launched.injEq] at heq
    obtain ⟨rfl, rfl, rfl⟩ := heq
    exact ⟨hstate, rfl, fun a p hchild => ⟨outfile, infile, (child_wired hin hout hchild).2⟩⟩
  | BUILTIN_QUIT => exact ⟨_, rfl, launches_other (by simp)⟩
  | BUILTIN_BG => exact ⟨_, rfl, launches_other (by simp)⟩
  | BUILTIN_FG => exact ⟨_, rfl, launches_other (by simp)⟩
  | BUILTIN_JOBS =>
    refine ⟨(evalJobs w outfile fds).1, ?_, launches_other fun state' cmdline c heq => ?_⟩
    · change Except.ok (evalJobs w outfile fds) = _
      rw [← Prod.eta (evalJobs w outfile fds), evalJobs_fds]
    · cases outfile with
      | none => cases heq
      | some file =>
        simp only [evalJobs, Process.openOut] at heq
        cases hrefusal : w.disk.refusal true file with
        | some e => simp [hrefusal] at heq
        | none => simp [hrefusal] at heq

/-- A call of the parser returns, and what it returns for a command can be read. -/
theorem parseline_returns (verbose : Bool) (cmdline : Bytes) (token : CmdlineTokens) :
    ∃ r, Converges (fun fuel => parseline verbose (some cmdline) token fuel) r ∧
      r.token.argc ≤ MAXARGS - 1 ∧
      (r.ret = .PARSELINE_FG ∨ r.ret = .PARSELINE_BG → r.token.Safe) := by
  obtain ⟨endbuf, q, hstart, hscan⟩ := parselineStart_scanning cmdline token
  have hinit : (loopSystem cmdline token).init (endbuf, .again q) := ⟨q, hstart, rfl⟩
  obtain ⟨r, N, hN⟩ := hscan.converges _ (le_refl _)
  obtain ⟨as, hsteps⟩ := scanLoop_run (hN N (le_refl N))
  obtain ⟨bound, htidy⟩ := reachable_good ((System.reachable_init hinit).run hsteps)
  obtain ⟨r', hr', hpost⟩ := Scanned.result_safe verbose htidy
  refine ⟨r', ⟨N, fun fuel hfuel => ?_⟩, hpost⟩
  have hloop : scanLoop endbuf fuel q = .ok r := hN fuel hfuel
  change parseline verbose (some cmdline) token fuel = _
  rw [parseline_eq, hstart, ok_bind, hloop, ok_bind, hr']

theorem evalParsed_converges {r : Parsed} {x : Event × Fds}
    (hparse : Converges (fun fuel => parseline verbose (some line) w.token fuel) r)
    (hx : evalParsed w line r fds = .ok x) :
    Converges (fun fuel => eval w verbose fuel line fds) x := by
  obtain ⟨N, hN⟩ := hparse
  refine ⟨N, fun fuel hfuel => ?_⟩
  have hrun : parseline verbose (some line) w.token fuel = .ok r := hN fuel hfuel
  change eval w verbose fuel line fds = _
  rw [eval, hrun, ok_bind, hx]

/-- The evaluation of a line ends, and leaves the descriptors as they were. -/
theorem eval_converges (hin : (fds.get STDIN_FILENO).isSome) (hout : (fds.get STDOUT_FILENO).isSome)
    (w : World) (verbose : Bool) (line : Bytes) :
    ∃ event, Converges (fun fuel => eval w verbose fuel line fds) (event, fds) ∧
      Launches fds line event := by
  obtain ⟨r, hparse, hargc, hsafe⟩ := parseline_returns verbose line w.token
  suffices hevent : ∃ event, evalParsed w line r fds = .ok (event, fds) ∧ Launches fds line event by
    obtain ⟨event, hrun, hl⟩ := hevent
    exact ⟨event, evalParsed_converges hparse hrun, hl⟩
  rw [evalParsed]
  cases hret : r.ret with
  | PARSELINE_ERROR => exact ⟨.nothing, rfl, launches_other (by simp)⟩
  | PARSELINE_EMPTY => exact ⟨.nothing, rfl, launches_other (by simp)⟩
  | PARSELINE_FG => exact evalToken_safe hin hout (hsafe (Or.inl hret)) hargc w line (Or.inl rfl)
  | PARSELINE_BG => exact evalToken_safe hin hout (hsafe (Or.inr hret)) hargc w line (Or.inr rfl)

/-! ### The line as a command -/

/-- What a line comes to for the shell with its handlers and children. -/
def Event.command : Event → Command
  | .nothing => .nothing
  | .launched state cmdline _ => .launch state cmdline
  | .backFore backg arg => .backFore backg arg
  | .listed _ => .jobs false
  | .listedTo _ _ => .jobs true
  | .unlisted => .jobs true
  | .quit => .quit

/-- It takes every line that was evaluated. -/
theorem Launches.taken (h : Launches fds line event) {s : Tsh} (hpc : s.main = .prompt)
    (hnil : s.handlers = []) : ∃ s', tsh.step s (.command event.command) s' := by
  cases event with
  | nothing => exact ⟨_, hpc, hnil, .nothing⟩
  | launched state cmdline c => exact ⟨_, hpc, hnil, .launch state cmdline (h state cmdline c rfl).1⟩
  | backFore backg arg => exact ⟨_, hpc, hnil, .backFore backg arg⟩
  | listed output => exact ⟨_, hpc, hnil, .jobs false⟩
  | listedTo output closed => exact ⟨_, hpc, hnil, .jobs true⟩
  | unlisted => exact ⟨_, hpc, hnil, .openFails⟩
  | quit => exact ⟨_, hpc, hnil, .quit⟩

/-- A line that neither launches nor resumes a job is followed to its end. -/
theorem Event.followed (hlaunch : ∀ state cmdline c, event ≠ .launched state cmdline c)
    (hresume : ∀ backg arg, event ≠ .backFore backg arg) (hw : w.returns = true) {s : Tsh}
    (hpc : s.main = .prompt) (hnil : s.handlers = []) :
    ∃ as s', tsh.Run s (.command event.command :: as) s' ∧ s'.list = s.list ∧
      (event.ending w = none → s'.main = .prompt) ∧
      ∀ e, event.ending w = some e → s'.main = .ended .exit := by
  cases event with
  | nothing =>
    exact ⟨[], s, .single ⟨hpc, hnil, .nothing⟩, rfl, fun _ => hpc, by simp [Event.ending]⟩
  | launched state cmdline c => exact absurd rfl (hlaunch state cmdline c)
  | backFore backg arg => exact absurd rfl (hresume backg arg)
  | listed output =>
    refine ⟨[.main, .main], _, .cons ⟨hpc, hnil, .jobs false⟩ (.cons ⟨hnil, .listed false rfl⟩
      (.single ⟨hnil, .unblock false rfl⟩)), rfl, fun _ => rfl, ?_⟩
    simp [Event.ending, hw]
  | listedTo output closed =>
    have hrun : tsh.Run s [.command (.jobs true), .main, .main]
        (((s.block (.listing true)).goto (.unblock true)).restore .closing) :=
      .cons ⟨hpc, hnil, .jobs true⟩ (.cons ⟨hnil, .listed true rfl⟩ (.single ⟨hnil, .unblock true rfl⟩))
    cases closed with
    | true =>
      refine ⟨[.main, .main, .main], _, hrun.append (.single ⟨hnil, .closed rfl⟩), rfl,
        fun _ => rfl, ?_⟩
      simp [Event.ending, hw]
    | false =>
      refine ⟨[.main, .main, .main], _, hrun.append (.single ⟨hnil, .closeFails rfl⟩), rfl, ?_,
        fun _ _ => rfl⟩
      simp [Event.ending, hw]
  | unlisted =>
    exact ⟨[], s, .single ⟨hpc, hnil, .openFails⟩, rfl, fun _ => hpc, by simp [Event.ending]⟩
  | quit =>
    exact ⟨[], _, .single ⟨hpc, hnil, .quit⟩, rfl, by simp [Event.ending], fun _ _ => rfl⟩

/-! ### The loop -/

/-- Where the lines come from: the next one, and what is left once it was evaluated. -/
structure Reader (σ : Type) where
  next : σ → Option (Bytes × σ)
  after : World → Event → σ → σ
  broken : Bool

def Input.reader (i : Input) : Reader Stdin := ⟨Stdin.fgets i (MAXLINE_TSH - 1), Stdin.after i, i.broken⟩

/-- The lines of a text, one after the other. -/
def textReader (broken : Bool) : Reader Bytes := ⟨cut (MAXLINE_TSH - 1), fun _ _ text => text, broken⟩

section Reader
variable {σ : Type} {r : Reader σ} {s : σ} {xs : List (Bytes × Event)} {ending : Option Ending}

/-- The lines that the loop evaluates from line `n` on, with what came of them, and how it ends with
    them; `none`: it has not ended yet. -/
inductive Course (r : Reader σ) (env : ℕ → World) (verbose : Bool) (fds : Fds) :
    ℕ → σ → List (Bytes × Event) → Option Ending → Prop
  | pauses {n : ℕ} {s : σ} : Course r env verbose fds n s [] none
  | stops {n : ℕ} {s : σ} (h : r.next s = none) :
      Course r env verbose fds n s [] (some (atEnd r.broken))
  | ends {n : ℕ} {s s' : σ} {piece : Bytes} {event : Event} {ending : Ending}
      (h : r.next s = some (piece, s'))
      (heval : Converges (fun fuel => eval (env n) verbose fuel (chomp piece) fds) (event, fds))
      (hends : event.ending (env n) = some ending) :
      Course r env verbose fds n s [(chomp piece, event)] (some ending)
  | goes {n : ℕ} {s s' : σ} {piece : Bytes} {event : Event} {xs : List (Bytes × Event)}
      {ending : Option Ending} (h : r.next s = some (piece, s'))
      (heval : Converges (fun fuel => eval (env n) verbose fuel (chomp piece) fds) (event, fds))
      (hends : event.ending (env n) = none)
      (hrest : Course r env verbose fds (n + 1) (r.after (env n) event s') xs ending) :
      Course r env verbose fds n s ((chomp piece, event) :: xs) ending

/-- What every line leads back to holds for ever. -/
theorem course_of_invariant {I : σ → Prop}
    (hstep : ∀ n s, I s → ∃ piece s' event, r.next s = some (piece, s') ∧
      Converges (fun fuel => eval (env n) verbose fuel (chomp piece) fds) (event, fds) ∧
      event.ending (env n) = none ∧ I (r.after (env n) event s')) (k : ℕ) :
    ∀ (n : ℕ) (s : σ), I s → ∃ xs, Course r env verbose fds n s xs none ∧ xs.length = k := by
  induction k with
  | zero => exact fun n s _ => ⟨[], .pauses, rfl⟩
  | succ k ih =>
    intro n s hs
    obtain ⟨piece, s', event, h, heval, hends, hnext⟩ := hstep n s hs
    obtain ⟨xs, hrest, hlen⟩ := ih (n + 1) _ hnext
    exact ⟨_, .goes h heval hends hrest, by rw [List.length_cons, hlen]⟩

/-- What holds of every line that can be read and evaluated holds of those that were. -/
theorem Course.forall {P : Bytes → Event → Prop}
    (hP : ∀ n s piece s' event, r.next s = some (piece, s') →
      Converges (fun fuel => eval (env n) verbose fuel (chomp piece) fds) (event, fds) →
      P (chomp piece) event)
    (h : Course r env verbose fds n s xs ending) : ∀ x ∈ xs, P x.1 x.2 := by
  induction h with
  | pauses => simp
  | stops => simp
  | ends h heval => exact List.forall_mem_cons.mpr ⟨hP _ _ _ _ _ h heval, by simp⟩
  | goes h heval _ _ ih => exact List.forall_mem_cons.mpr ⟨hP _ _ _ _ _ h heval, ih⟩

/-- Something that grows less with every line bounds their number. -/
theorem Course.length_le {μ : σ → ℕ}
    (hnext : ∀ s piece s', r.next s = some (piece, s') → μ s' < μ s)
    (hafter : ∀ w event s, μ (r.after w event s) ≤ μ s)
    (h : Course r env verbose fds n s xs ending) : xs.length ≤ μ s := by
  induction h with
  | pauses => exact Nat.zero_le _
  | stops => exact Nat.zero_le _
  | ends h => exact Nat.one_le_of_lt (hnext _ _ _ h)
  | goes h _ _ _ ih => exact Nat.lt_of_le_of_lt (ih.trans (hafter _ _ _)) (hnext _ _ _ h)

end Reader

/-! ### The loop over standard input -/

section Stdin
variable {xs : List (Bytes × Event)} {ending : Option Ending}

/-- What the loop returns, with enough fuel for the lines: the end, if it is allowed one round more
    than there are lines, and nothing if it has not ended with them. -/
theorem Course.loop (hin : (fds.get STDIN_FILENO).isSome)
    (h : Course i.reader env verbose fds n s xs ending) : ∃ N, ∀ fuel, N ≤ fuel →
      (ending = none → mainLoop env i verbose fuel xs.length n s fds = .error .fuel) ∧
      ∀ e, ending = some e → ∀ rounds, xs.length < rounds →
        mainLoop env i verbose fuel rounds n s fds = .ok ⟨xs, e, fds⟩ := by
  have hopen : ¬ (fds.get STDIN_FILENO).isNone = true := by
    rw [Option.isNone_iff_eq_none]
    exact Option.isSome_iff_ne_none.mp hin
  induction h with
  | pauses => exact ⟨0, fun fuel _ => ⟨fun _ => rfl, by simp⟩⟩
  | stops h =>
    have hget : Stdin.fgets i (MAXLINE_TSH - 1) _ = none := h
    refine ⟨0, fun fuel _ => ⟨by simp, fun e he rounds hrounds => ?_⟩⟩
    obtain ⟨rounds, rfl⟩ : ∃ k, rounds = k + 1 := Nat.exists_eq_add_of_le' hrounds
    obtain rfl := Option.some.inj he
    simp only [mainLoop, if_neg hopen, hget]
    rfl
  | ends h heval hends =>
    obtain ⟨N, hN⟩ := heval
    have hget : Stdin.fgets i (MAXLINE_TSH - 1) _ = some _ := h
    refine ⟨N, fun fuel hfuel => ⟨by simp, fun e he rounds hrounds => ?_⟩⟩
    obtain ⟨rounds, rfl⟩ : ∃ k, rounds = k + 1 := Nat.exists_eq_add_of_le' (Nat.one_le_of_lt hrounds)
    obtain rfl := Option.some.inj he
    have hrun := hN fuel hfuel
    simp only [mainLoop, if_neg hopen, hget, hrun, ok_bind, hends]
  | goes h heval hends _ ih =>
    obtain ⟨N, hN⟩ := heval
    obtain ⟨K, hK⟩ := ih
    have hget : Stdin.fgets i (MAXLINE_TSH - 1) _ = some _ := h
    refine ⟨max N K, fun fuel hfuel => ⟨fun he => ?_, fun e he rounds hrounds => ?_⟩⟩
    · have hrun := hN fuel (by omega)
      have hloop : mainLoop env i verbose fuel _ _ (Stdin.after i _ _ _) fds = .error .fuel :=
        (hK fuel (by omega)).1 he
      simp only [List.length_cons, mainLoop, if_neg hopen, hget, hrun, ok_bind, hends, hloop]
      rfl
    · obtain ⟨rounds, rfl⟩ : ∃ k, rounds = k + 1 :=
        Nat.exists_eq_add_of_le' (Nat.one_le_of_lt hrounds)
      have hrun := hN fuel (by omega)
      have hloop : mainLoop env i verbose fuel rounds _ (Stdin.after i _ _ _) fds = .ok _ :=
        (hK fuel (by omega)).2 e he rounds (Nat.lt_of_succ_lt_succ hrounds)
      simp only [mainLoop, if_neg hopen, hget, hrun, ok_bind, hends, hloop]

theorem after_eq (h : i.seekable = false ∨ event.exitsSharing = false) (s : Stdin) :
    s.after i w event = s := by
  rcases h with h | h
  · simp [Stdin.after, Stdin.giveBack, h]
  · simp [Stdin.after, h]

end Stdin

/-! ### The lines of a text -/

section Text
variable {input : Bytes} {xs : List (Bytes × Event)} {ending : Ending}

inductive Lines : Bytes → List Bytes → Prop
  | stops {input : Bytes} (h : cut (MAXLINE_TSH - 1) input = none) : Lines input []
  | goes {input piece rest : Bytes} {ls : List Bytes}
      (h : cut (MAXLINE_TSH - 1) input = some (piece, rest))
      (hrest : Lines rest ls) : Lines input (chomp piece :: ls)

theorem exists_lines (k : ℕ) : ∀ input : Bytes, input.length ≤ k → ∃ ls, Lines input ls := by
  induction k with
  | zero =>
    intro input hk
    obtain rfl : input = [] := List.length_eq_zero_iff.mp (Nat.le_zero.mp hk)
    exact ⟨[], .stops rfl⟩
  | succ k ih =>
    intro input hk
    cases h : cut (MAXLINE_TSH - 1) input with
    | none => exact ⟨[], .stops h⟩
    | some found =>
      obtain ⟨piece, rest⟩ := found
      have hlt := cut_some (by decide) h
      obtain ⟨ls, hls⟩ := ih rest (by omega)
      exact ⟨_, .goes h hls⟩

/-- All lines from line `n` on are evaluated, unless a line ends the shell. -/
def Complete (env : ℕ → World) (broken : Bool) (n : ℕ) (input : Bytes) (xs : List (Bytes × Event))
    (ending : Ending) : Prop :=
  ∃ unread, Lines input (xs.map Prod.fst ++ unread) ∧
    ((unread = [] ∧ ending = atEnd broken) ∨
      ∃ x ∈ xs.getLast?, x.2.ending (env (n + xs.length - 1)) = some ending)

/-- The next line of standard input is that of the text. -/
theorem reader_next (hi : i.Still text) {s : Stdin} {piece rest : Bytes}
    (h : (textReader i.broken).next (s.ahead text) = some (piece, rest)) :
    ∃ s', i.reader.next s = some (piece, s') ∧ s'.ahead text = rest := by
  have hcut : cut (MAXLINE_TSH - 1) (s.ahead text) = some (piece, rest) := h
  rw [← fgets_ahead hi, Option.map_eq_some_iff] at hcut
  obtain ⟨⟨piece', s'⟩, hget, heq⟩ := hcut
  obtain ⟨rfl, hrest⟩ := Prod.mk.inj heq
  exact ⟨s', hget, hrest⟩

/-- The loop over standard input goes through the text that is ahead, if nobody else moves the offset. -/
theorem Course.of_text (hi : i.Still text) {s : Stdin} {ending : Option Ending}
    (h : Course (textReader i.broken) env verbose fds n (s.ahead text) xs ending)
    (hshare : i.seekable = false ∨ ∀ x ∈ xs, x.2.exitsSharing = false) :
    Course i.reader env verbose fds n s xs ending := by
  generalize hinput : s.ahead text = input at h
  induction h generalizing s with
  | pauses => exact .pauses
  | stops h =>
    subst hinput
    have hcut : cut (MAXLINE_TSH - 1) (s.ahead text) = none := h
    rw [← fgets_ahead hi] at hcut
    exact .stops (r := i.reader) (Option.map_eq_none_iff.mp hcut)
  | ends h heval hends =>
    subst hinput
    obtain ⟨s', hget, -⟩ := reader_next hi h
    exact .ends hget heval hends
  | @goes n _ _ piece event xs _ h heval hends _ ih =>
    subst hinput
    obtain ⟨s', hget, hrest⟩ := reader_next hi h
    have hstays : i.reader.after (env n) event s' = s' :=
      after_eq (hshare.imp_right fun hall => hall _ List.mem_cons_self) s'
    refine .goes hget heval hends ?_
    rw [hstays]
    exact ih (hshare.imp_right fun hall x hx => hall x (List.mem_cons_of_mem _ hx)) hrest

end Text

/-! ### The shell -/

/-- The descriptors once standard error is standard output. -/
def shellFds (fds : Fds) : Fds := fds.dup2 STDOUT_FILENO STDERR_FILENO

theorem shellFds_get (hk : k < STDERR_FILENO) : (shellFds fds).get k = fds.get k := by
  rw [shellFds, Descriptors.dup2]
  cases fds.get STDOUT_FILENO with
  | none => rfl
  | some x => rw [Descriptors.get_assign, if_neg (Nat.ne_of_lt hk)]

theorem main_converges {xs : List (Bytes × Event)} {ending : Ending}
    (hin : (fds.get STDIN_FILENO).isSome) (hout : (fds.get STDOUT_FILENO).isSome)
    (h : Course i.reader env verbose (shellFds fds) 0 ⟨[], offset, 0⟩ xs (some ending)) :
    Converges (main env i verbose offset fds) ⟨xs, ending, shellFds fds⟩ := by
  obtain ⟨N, hN⟩ := h.loop (by rwa [shellFds_get (by decide)])
  refine ⟨max N (xs.length + 1), fun fuel hfuel => ?_⟩
  rw [main, if_pos hout]
  exact (hN fuel (by omega)).2 ending rfl fuel (by omega)

/-- The line was read by one `fgets`, and its child is launched as it says. -/
structure Proper (fds : Fds) (line : Bytes) (event : Event) : Prop where
  read : ∃ piece, Piece (MAXLINE_TSH - 1) piece ∧ line = chomp piece
  launches : Launches fds line event

theorem proper_of_evaluated (hin : (fds.get STDIN_FILENO).isSome)
    (hout : (fds.get STDOUT_FILENO).isSome) {s s' : Stdin} {piece : Bytes}
    (h : i.reader.next s = some (piece, s'))
    (heval : Converges (fun fuel => eval (env n) verbose fuel (chomp piece) fds) (event, fds)) :
    Proper fds (chomp piece) event := by
  obtain ⟨event', heval', hl⟩ := eval_converges hin hout (env n) verbose (chomp piece)
  obtain ⟨rfl, -⟩ := Prod.mk.inj (heval.unique heval')
  exact ⟨⟨piece, fgets_piece h, rfl⟩, hl⟩

/-- The first `k` lines do not end the shell, whatever `k` is. -/
def GoesOn (env : ℕ → World) (i : Input) (verbose : Bool) (offset : ℕ) (fds : Fds) : Prop :=
  ∀ k, ∃ xs, Course i.reader env verbose fds 0 ⟨[], offset, 0⟩ xs none ∧ xs.length = k ∧
    (∀ x ∈ xs, Proper fds x.1 x.2) ∧
    ∃ N, ∀ fuel, N ≤ fuel → mainLoop env i verbose fuel k 0 ⟨[], offset, 0⟩ fds = .error .fuel

theorem goesOn_of_course (hin : (fds.get STDIN_FILENO).isSome) (hout : (fds.get STDOUT_FILENO).isSome)
    (h : ∀ k, ∃ xs, Course i.reader env verbose fds 0 ⟨[], offset, 0⟩ xs none ∧ xs.length = k) :
    GoesOn env i verbose offset fds := by
  intro k
  obtain ⟨xs, hcourse, rfl⟩ := h k
  obtain ⟨N, hN⟩ := hcourse.loop hin
  exact ⟨xs, hcourse, rfl, hcourse.forall fun _ _ _ _ _ => proper_of_evaluated hin hout,
    N, fun fuel hfuel => (hN fuel hfuel).1 rfl⟩

/-- The terminal. -/
def terminalFds : Fds where
  get k := if k ≤ STDERR_FILENO then some (.inherited k) else none
  bounded := ⟨3, fun _ hk => if_neg (Nat.not_le.mpr hk)⟩

/-- Every line finds a file `in` with nothing in it, and every program. -/
def openWorld : World where
  disk :=
    ⟨fun file => if file = str "in" then 0 else 1, fun f => if f = 0 then some [] else none,
      fun _ _ => none, fun _ _ => true⟩
  execve _ := none
  token := ⟨0, fun _ => none, none, none, .BUILTIN_NONE, Buffer.strncpy _ []⟩
  returns := true
  exits := true

/-- Every read gives eight bytes at most, and nobody else moves the offset. -/
def quietInput (seekable : Bool) (text : Bytes) : Input :=
  ⟨fun _ => text, fun _ offset => offset, fun _ => 7, seekable, false⟩

theorem quietInput_still (seekable : Bool) (text : Bytes) : (quietInput seekable text).Still text :=
  ⟨fun _ => rfl, fun _ _ => rfl⟩

end Labs.Shell.ReadEval
