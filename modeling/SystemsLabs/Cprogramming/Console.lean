import SystemsLabs.Cprogramming.ConsoleArgs
import SystemsLabs.Schemes.Scanf

/-! @lab cprogramminglab | file:console.c, report.c | structure:command interpreter over a stack of files

    Commands are read from the file on top of a stack, onto which `source` puts another one. `ι` names
    what the program that uses the console adds: operations, parameters, setters, quit helpers; they
    act on its own state `U`. `σ` is what the stack holds: a `rio_t`, or later the text to come.
    `do_quit_cmd` frees the lists of commands and parameters and leaves the pointers; `none` stands for
    a freed list, and using one is a fault. So is a report to the log file once `report_event` has
    closed that. The texts of the times and of the log file, the prompt before a `select` and
    `block_flag`, which only network programs set, are left out. -/

namespace Labs.Cmdline
open Schemes

abbrev Bytes := List UInt8

/-- `cmd_function`s. -/
inductive Op (ι : Type) where
  | help
  | option
  | quit
  | source
  | log
  | time
  | comment
  | user (i : ι)

structure CmdEle (ι : Type) where
  name : Bytes
  operation : Op ι
  documentation : Bytes

/-- What `valp` points to. -/
inductive ParamLoc (ι : Type) where
  | verblevel
  | err_limit
  | echo
  | user (i : ι)

structure ParamEle (ι : Type) where
  name : Bytes
  valp : ParamLoc ι
  documentation : Bytes
  setter : Option ι

/-- One `read` that finds something. -/
structure Piece where
  first : UInt8
  more : Bytes

/-- What `open` finds: a descriptor and what the reads will give. Behind the last piece a `read`
    returns 0 or fails, which comes to the same. -/
structure Opened where
  fd : ℕ
  pieces : List Piece

/-- `rio_t`: the file, with the unread bytes of the buffer. -/
structure RioEle extends Opened where
  buf : Bytes

/-- `logfile`. `report_event` closes the file and leaves the pointer. -/
inductive LogFile where
  | null
  | opened
  | closed
  deriving DecidableEq

/-- What a function of the program can change: its own state and, by an event that it shows, the log
    file. -/
structure Shared (U : Type) where
  logfile : LogFile
  user : U

/-- What the console uses of the program and the system. What a function does may depend on how many
    files are open. -/
structure Env (ι U : Type) where
  operation : ι → List Bytes → ℕ → Shared U → Bool × Shared U
  value : ι → U → ℤ
  assign : ι → ℤ → U → U
  setter : ι → ℤ → ℕ → Shared U → Shared U
  set_logfile : Bytes → ℕ → U → Bool × U
  /-- What a block holds when `malloc` returns it. -/
  block : U → (n : ℕ) → Buffer n

/-- `open`, by the number of files on the stack, since there are only so many descriptors. -/
abbrev Opens (U σ : Type) := ℕ → U → Bytes → Option σ

/-- The global variables, but for the stack of files. -/
structure Globals (ι U : Type) extends Shared U where
  cmd_list : Option (List (CmdEle ι))
  param_list : Option (List (ParamEle ι))
  verblevel : ℤ
  err_limit : ℤ
  echo : ℤ
  err_cnt : ℕ
  quit_flag : Bool
  quit_helpers : List ι
  prompt : Bytes
  out : Bytes

structure Console (ι U σ : Type) where
  buf_stack : List σ
  globals : Globals ι U

variable {ι U σ : Type}

/-! ### Numbers -/

/-- The base that a number is written in, by its prefix. -/
def baseOf (t : Bytes) : ℕ :=
  if t.head? = some 48 ∧ (t[1]? = some 120 ∨ t[1]? = some 88) ∧ ∃ c ∈ t[2]?, digitOf c < 16 then 16
  else if t.head? = some 48 then 8
  else 10

/-- `strtol` with base 0: the value, and the text behind the number. -/
def strtol (s : Bytes) : ℤ × Bytes :=
  let t := skipSign (s.dropWhile isspace)
  let base := baseOf t
  let ds := if base = 16 then t.drop 2 else t
  if ds.takeWhile (digitOf · < base) = [] then (0, s)
  else (toLong ((s.dropWhile isspace).head? = some 45) (digitsNat base (ds.takeWhile (digitOf · < base))),
    ds.dropWhile (digitOf · < base))

/-- `get_int`: the `int` stored, if there is one. -/
def get_int (vname : Bytes) : Option ℤ :=
  let (v, rest) := strtol vname
  if v = -2 ^ 63 ∨ rest ≠ [] then none else some (v.bmod (2 ^ 32))

/-! ### Lists of commands and parameters -/

/-- `strcmp(name, next->name) > 0` -/
def after : Bytes → Bytes → Bool
  | [], _ => false
  | _ :: _, [] => true
  | c :: s, d :: t => d < c || (c = d && after s t)

/-- The walk of `add_cmd` and `add_param`, which put the new element before the first that is not
    before it. -/
def insertBy {α : Type} (name : α → Bytes) (ele : α) : List α → List α
  | [] => [ele]
  | x :: xs => if after (name ele) (name x) then x :: insertBy name ele xs else ele :: x :: xs

namespace Globals
variable (g : Globals ι U)

/-- A freed list is not to be used. -/
def commands : Except Stop (List (CmdEle ι)) :=
  match g.cmd_list with
  | some cmds => .ok cmds
  | none => .error .fault

def params : Except Stop (List (ParamEle ι)) :=
  match g.param_list with
  | some params => .ok params
  | none => .error .fault

def add_cmd (ele : CmdEle ι) : Except Stop (Globals ι U) := do
  let cmds ← g.commands
  .ok { g with cmd_list := some (insertBy CmdEle.name ele cmds) }

def add_param (ele : ParamEle ι) : Except Stop (Globals ι U) := do
  let params ← g.params
  .ok { g with param_list := some (insertBy ParamEle.name ele params) }

/-! ### Reports -/

/-- Writing to a closed log file is a fault. -/
def report_noreturn (level : ℤ) (text : Bytes) : Except Stop (Globals ι U) :=
  if level ≤ g.verblevel then
    if g.logfile = .closed then .error .fault else .ok { g with out := g.out ++ text }
  else .ok g

def report (level : ℤ) (text : Bytes) : Except Stop (Globals ι U) :=
  g.report_noreturn level (text ++ [10])

def record_error : Except Stop (Globals ι U) :=
  let g := { g with err_cnt := g.err_cnt + 1 }
  if (g.err_cnt : ℤ) ≥ g.err_limit then do
    let g ← g.report 1 (str "Error limit exceeded.  Stopping command execution")
    .ok { g with quit_flag := true }
  else .ok g

/-! ### Built-in commands -/

def value (env : Env ι U) : ParamLoc ι → ℤ
  | .verblevel => g.verblevel
  | .err_limit => g.err_limit
  | .echo => g.echo
  | .user i => env.value i g.user

def assign (env : Env ι U) (v : ℤ) : ParamLoc ι → Globals ι U
  | .verblevel => { g with verblevel := v }
  | .err_limit => { g with err_limit := v }
  | .echo => { g with echo := v }
  | .user i => { g with user := env.assign i v g.user }

/-- The calls of the quit helpers, up to the first that fails. No file is open then. -/
def callHelpers (env : Env ι U) (argv : List Bytes) : List ι → Shared U → Bool × Shared U
  | [], x => (true, x)
  | i :: is, x =>
    let (ok, x) := env.operation i argv 0 x
    if ok then callHelpers env argv is x else (false, x)

def do_quit_cmd (env : Env ι U) (argv : List Bytes) : Except Stop (Bool × Globals ι U) := do
  let _ ← g.commands
  let _ ← g.params
  let (ok, x) := callHelpers env argv g.quit_helpers g.toShared
  .ok (ok, { g with cmd_list := none, param_list := none, toShared := x, quit_flag := true })

/-- The lines `name value documentation`, with a tab before each part. -/
def listParams (env : Env ι U) (params : List (ParamEle ι)) : Except Stop (Globals ι U) := do
  let g ← g.report 1 (str "Options:")
  params.foldlM (fun g p => g.report 1 (9 :: p.name ++ 9 :: intNumeral 10 (g.value env p.valp) ++
    9 :: p.documentation)) g

def do_help_cmd (env : Env ι U) : Except Stop (Bool × Globals ι U) := do
  let cmds ← g.commands
  let g ← g.report 1 (str "Commands:")
  let g ← cmds.foldlM (fun g c => g.report 1 (9 :: c.name ++ 9 :: c.documentation)) g
  let params ← g.params
  let g ← g.listParams env params
  .ok (true, g)

def do_comment_cmd (argv : List Bytes) : Except Stop (Bool × Globals ι U) :=
  if g.echo ≠ 0 then .ok (true, g)
  else do
    let g ← argv.dropLast.foldlM (fun g arg => g.report_noreturn 1 (arg ++ [32])) g
    match argv.getLast? with
    | some arg => do
      let g ← g.report 1 arg
      .ok (true, g)
    | none => .ok (true, g)

/-- The end of a command that says what is wrong. -/
def refuse (text : Bytes) : Except Stop (Bool × Globals ι U) := do
  let g ← g.report 1 text
  .ok (false, g)

/-- The loop of `do_option_cmd` over the arguments that are left. -/
def optionLoop (env : Env ι U) (files : ℕ) (params : List (ParamEle ι)) :
    List Bytes → Globals ι U → Except Stop (Bool × Globals ι U)
  | [], g => .ok (true, g)
  | [name], g => g.refuse (str "No value given for parameter " ++ name)
  | name :: text :: args, g =>
    match get_int text with
    | none => g.refuse (str "Cannot parse '" ++ text ++ str "' as integer")
    | some v =>
      match params.find? (·.name = name) with
      | none => g.refuse (str "Unknown parameter '" ++ name ++ str "'")
      | some p =>
        let oldval := g.value env p.valp
        let g := g.assign env v p.valp
        let g := match p.setter with
          | some i => { g with toShared := env.setter i oldval files g.toShared }
          | none => g
        optionLoop env files params args g

def do_option_cmd (env : Env ι U) (files : ℕ) (argv : List Bytes) :
    Except Stop (Bool × Globals ι U) := do
  let params ← g.params
  if argv.length = 1 then do
    let g ← g.listParams env params
    .ok (true, g)
  else optionLoop env files params argv.tail g

def do_log_cmd (env : Env ι U) (files : ℕ) (argv : List Bytes) : Except Stop (Bool × Globals ι U) :=
  match argv[1]? with
  | none => g.refuse (str "No log file given")
  | some name =>
    let (ok, u) := env.set_logfile name files g.user
    if ok then .ok (true, { g with user := u, logfile := .opened })
    else { g with user := u, logfile := .null }.refuse
      (str "Couldn't open log file '" ++ name ++ str "'")

end Globals

namespace Console
variable (s : Console ι U σ)

/-- What a command has made of the variables. -/
def setGlobals (r : Bool × Globals ι U) : Bool × Console ι U σ := (r.1, { s with globals := r.2 })

def report (level : ℤ) (text : Bytes) : Except Stop (Console ι U σ) := do
  let g ← s.globals.report level text
  .ok { s with globals := g }

/-- Put a file on the stack. -/
def push_file (e : σ) : Console ι U σ := { s with buf_stack := e :: s.buf_stack }

def do_source_cmd (opens : Opens U σ) (argv : List Bytes) : Except Stop (Bool × Console ι U σ) :=
  match argv[1]? with
  | none => do
    let s ← s.report 1 (str "No source file given")
    .ok (false, s)
  | some name =>
    match opens s.buf_stack.length s.globals.user name with
    | some e => .ok (true, s.push_file e)
    | none => do
      let s ← s.report 1 (str "Could not open source file '" ++ name ++ str "'")
      .ok (false, s)

/-- A command other than `time`. `quit` closes the files. -/
def perform (env : Env ι U) (opens : Opens U σ) (argv : List Bytes) :
    Op ι → Except Stop (Bool × Console ι U σ)
  | .help => s.setGlobals <$> s.globals.do_help_cmd env
  | .option => s.setGlobals <$> s.globals.do_option_cmd env s.buf_stack.length argv
  | .quit => { s with buf_stack := [] }.setGlobals <$> s.globals.do_quit_cmd env argv
  | .source => s.do_source_cmd opens argv
  | .log => s.setGlobals <$> s.globals.do_log_cmd env s.buf_stack.length argv
  | .comment => s.setGlobals <$> s.globals.do_comment_cmd argv
  | .user i =>
    let (ok, x) := env.operation i argv s.buf_stack.length s.globals.toShared
    .ok (ok, { s with globals := { s.globals with toShared := x } })
  | .time => .ok (true, s)

/-- `record_error` of a command that has failed. -/
def recordUnless (ok : Bool) : Except Stop (Console ι U σ) :=
  if ok then .ok s
  else do
    let g ← s.globals.record_error
    .ok { s with globals := g }

end Console

/-- What `do_time_cmd` does behind its command; the text of the report is left out. -/
def tellTime (r : Bool × Console ι U σ) : Except Stop (Bool × Console ι U σ) := do
  let g ← r.2.globals.report_noreturn 1 []
  .ok (r.1, { r.2 with globals := g })

/-- `interpret_cmda`. `do_time_cmd` calls it again with the arguments behind `time`, and reports. -/
def interpret_cmda (env : Env ι U) (opens : Opens U σ) :
    List Bytes → Console ι U σ → Except Stop (Bool × Console ι U σ)
  | [], s => .ok (true, s)
  | name :: args, s => do
    let cmds ← s.globals.commands
    match cmds.find? (·.name = name) with
    | none => do
      let s ← s.report 1 (str "Unknown command '" ++ name ++ str "'")
      let s ← s.recordUnless false
      .ok (false, s)
    | some cmd => do
      let (ok, s) ← match cmd.operation with
        | .time => interpret_cmda env opens args s >>= tellTime
        | op => s.perform env opens (name :: args) op
      let s ← s.recordUnless ok
      .ok (ok, s)

def interpret_cmd (env : Env ι U) (opens : Opens U σ) (cmdline : Bytes) (s : Console ι U σ) :
    Except Stop (Bool × Console ι U σ) :=
  if s.globals.quit_flag then .ok (false, s)
  else do
    let argv ← parse_args (cstr cmdline) (env.block s.globals.user _)
    interpret_cmda env opens argv s

/-! ### The commands there are from the start -/

def builtinCmds : List (CmdEle ι) :=
  [⟨str "help", .help, str "                | Show documentation"⟩,
    ⟨str "option", .option, str " [name val]     | Display or set options"⟩,
    ⟨str "quit", .quit, str "                | Exit program"⟩,
    ⟨str "source", .source, str " file           | Read commands from source file"⟩,
    ⟨str "log", .log, str " file           | Copy output to file"⟩,
    ⟨str "time", .time, str " cmd arg ...    | Time command execution"⟩,
    ⟨str "#", .comment, str " ...            | Display comment"⟩]

def builtinParams : List (ParamEle ι) :=
  [⟨str "verbose", .verblevel, str "Verbosity level", none⟩,
    ⟨str "error", .err_limit, str "Number of errors until exit", none⟩,
    ⟨str "echo", .echo, str "Do/don't echo commands", none⟩]

/-- `init_cmd`, with the initial values of the other variables. -/
def init_cmd (user : U) : Globals ι U where
  cmd_list := some (builtinCmds.foldl (fun cmds ele => insertBy CmdEle.name ele cmds) [])
  param_list := some (builtinParams.foldl (fun params ele => insertBy ParamEle.name ele params) [])
  verblevel := 0
  err_limit := 5
  echo := 0
  err_cnt := 0
  quit_flag := false
  quit_helpers := []
  prompt := str "cmd>"
  out := []
  logfile := .null
  user := user

/-! ### Input -/

def RIO_BUFSIZE : ℕ := 8192

/-- The next byte of a file, from the buffer or a new `read`. -/
def RioEle.next (e : RioEle) : Option (UInt8 × RioEle) :=
  match e.buf, e.pieces with
  | c :: buf, _ => some (c, { e with buf := buf })
  | [], p :: pieces => some (p.first, { e with buf := p.more, pieces := pieces })
  | [], [] => none

/-- The loop of `readline` with `k` rounds left: the line, and the file unless it has ended. -/
def readLoop : ℕ → Bytes → RioEle → Option Bytes × Option RioEle
  | 0, line, e => (some (line ++ [10]), some e)
  | k + 1, line, e =>
    match e.next with
    | none => (if line = [] then none else some (line ++ [10]), none)
    | some (c, e) => if c = 10 then (some (line ++ [10]), some e) else readLoop k (line ++ [c]) e

def RioEle.readline (e : RioEle) : Option Bytes × Option RioEle := readLoop (RIO_BUFSIZE - 2) [] e

/-- What `vfprintf` prints for a format without arguments; a conversion has none to take. -/
def printFormat : Bytes → Except Stop Bytes
  | [] => .ok []
  | [c] => if c = 37 then .error .fault else .ok [c]
  | c :: d :: fmt =>
    if c = 37 then
      if d = 37 then do
        let text ← printFormat fmt
        .ok (37 :: text)
      else .error .fault
    else do
      let text ← printFormat (d :: fmt)
      .ok (c :: text)

/-- `report_noreturn(level, fmt)` without arguments. -/
def Globals.reportFormat (g : Globals ι U) (level : ℤ) (fmt : Bytes) :
    Except Stop (Globals ι U) :=
  if level ≤ g.verblevel then do
    let text ← printFormat (cstr fmt)
    g.report_noreturn level text
  else .ok g

/-- The echo of a line, with the prompt before it. -/
def Globals.echoLine (g : Globals ι U) (line : Bytes) : Except Stop (Globals ι U) :=
  if g.echo ≠ 0 then do
    let g ← g.reportFormat 1 g.prompt
    g.reportFormat 1 line
  else .ok g

/-- `readline`, given how a line is taken from the file on top. -/
def readline (take : σ → Option Bytes × Option σ) (s : Console ι U σ) :
    Except Stop (Option Bytes × Console ι U σ) :=
  match s.buf_stack with
  | [] => .ok (none, s)
  | e :: stack =>
    let stack := (take e).2.toList ++ stack
    match (take e).1 with
    | none => .ok (none, ⟨stack, s.globals⟩)
    | some line => do
      let g ← s.globals.echoLine line
      .ok (some line, ⟨stack, g⟩)

/-- Read a line and interpret it. -/
def readAndInterpret (env : Env ι U) (opens : Opens U σ)
    (take : σ → Option Bytes × Option σ) (s : Console ι U σ) : Except Stop (Console ι U σ) := do
  let (line, s) ← readline take s
  match line with
  | some cmdline => do
    let (_, s) ← interpret_cmd env opens cmdline s
    .ok s
  | none => .ok s

def cmd_done (s : Console ι U σ) : Bool := s.buf_stack.isEmpty || s.globals.quit_flag

/-- There is a whole line in the buffer. -/
def read_ready (s : Console ι U RioEle) : Bool :=
  match s.buf_stack with
  | e :: _ => 10 ∈ e.buf
  | [] => false

/-- What an `fd_set` has room for. -/
def FD_SETSIZE : ℕ := 1024

section Select
variable (env : Env ι U) (openFile : Opens U Opened)

/-- `push_file` starts with an empty buffer. -/
def rioOpen : Opens U RioEle := fun files u name => (openFile files u name).map (RioEle.mk · [])

/-- The first loop of `cmd_select`. -/
def drain : ℕ → Console ι U RioEle → Except Stop (Console ι U RioEle)
  | 0, _ => .error .fuel
  | k + 1, s =>
    if read_ready s then do
      let s ← readAndInterpret env (rioOpen openFile) RioEle.readline s
      drain k s
    else .ok s

/-- `FD_SET` of the file on top. -/
def setOk (s : Console ι U RioEle) : Bool := s.buf_stack.head?.all (·.fd < FD_SETSIZE)

/-- `cmd_select` without network: `select` returns when the file on top can be read. -/
def cmd_select (fuel : ℕ) (s : Console ι U RioEle) : Except Stop (Console ι U RioEle) := do
  let s ← drain env openFile fuel s
  if cmd_done s then .ok s
  else if ¬ setOk s then .error .fault
  else readAndInterpret env (rioOpen openFile) RioEle.readline s

/-- The loop of `run_console`. -/
def consoleLoop : ℕ → Console ι U RioEle → Except Stop (Console ι U RioEle)
  | 0, _ => .error .fuel
  | k + 1, s =>
    if cmd_done s then .ok s
    else do
      let s ← cmd_select env openFile k s
      consoleLoop k s

/-- `run_console`, given what `open` makes of the file. -/
def run_console (fuel : ℕ) (name : Bytes) (file : Option Opened) (s : Console ι U RioEle) :
    Except Stop (Bool × Console ι U RioEle) :=
  match file with
  | none => do
    let s ← s.report 1 (str "ERROR: Could not open source file '" ++ name ++ str "'")
    .ok (false, s)
  | some file => do
    let s ← consoleLoop env openFile fuel (s.push_file ⟨file, []⟩)
    .ok (s.globals.err_cnt = 0, s)

end Select

end Labs.Cmdline
