import Mathlib.Logic.Function.Basic
import SystemsLabs.Schemes.Buffer
import SystemsLabs.Shelllab.JobList

/-! @lab shelllab | file:tsh_helper.c (parseline), tsh_helper.h | structure:in-place tokenizer |
    scheme:buffer

    The line is copied into the token structure and cut there: each token ends where its closing
    quote or the white-space after it stood. A `<` or `>` says what the next token is for; it is an
    argument otherwise. The line is in the background when the last argument starts with `&`, quoted
    or not. Pointers are offsets in `_buf`; what `argv` holds before the call is anything. -/

namespace Labs.Shell
open Schemes

def MAXLINE_TSH : ℕ := 1024

def MAXARGS : ℕ := 128

inductive ParseState where
  | ST_NORMAL
  | ST_INFILE
  | ST_OUTFILE
  deriving DecidableEq, Repr

inductive ParselineReturn where
  | PARSELINE_FG
  | PARSELINE_BG
  | PARSELINE_EMPTY
  | PARSELINE_ERROR
  deriving DecidableEq, Repr

inductive BuiltinState where
  | BUILTIN_NONE
  | BUILTIN_QUIT
  | BUILTIN_JOBS
  | BUILTIN_BG
  | BUILTIN_FG
  deriving DecidableEq, Repr

/-- `struct cmdline_tokens`; `none` is `NULL`. -/
structure CmdlineTokens where
  argc : ℕ
  argv : Fin MAXARGS → Option ℕ
  infile : Option ℕ
  outfile : Option ℕ
  builtin : BuiltinState
  _buf : Buffer MAXLINE_TSH

/-- `token->argv[k] = p`. -/
def CmdlineTokens.setArgv (t : CmdlineTokens) (k : ℕ) (p : Option ℕ) : Except Stop CmdlineTokens :=
  if h : k < MAXARGS then .ok { t with argv := Function.update t.argv ⟨k, h⟩ p } else .error .fault

/-- `token->argv[k]`, to be followed. -/
def CmdlineTokens.arg (t : CmdlineTokens) (k : ℕ) : Except Stop ℕ :=
  if h : k < MAXARGS then
    match t.argv ⟨k, h⟩ with
    | some p => .ok p
    | none => .error .fault
  else .error .fault

/-- The white-space `" \t\r\n"`. -/
def delims : List UInt8 := [32, 9, 13, 10]

/-- The variables of the loop. -/
structure Parse where
  buf : ℕ
  parsing_state : ParseState
  token : CmdlineTokens

/-- How the loop ends: left at its condition or by `break`, or by a `return` with its message. -/
inductive Scanned where
  | left (p : Parse)
  | failed (token : CmdlineTokens) (message : String)

inductive Round where
  | again (p : Parse)
  | stop (r : Scanned)

def ambiguous : String := "Error: Ambiguous I/O redirection\n"

def unmatched (c : UInt8) : String :=
  "Error: unmatched " ++ String.singleton (Char.ofNat c.toNat) ++ ".\n"

/-- The `switch` on the parsing state. -/
def Parse.record (p : Parse) (buf : ℕ) : Except Stop Parse :=
  match p.parsing_state with
  | .ST_NORMAL => do
    let token ← p.token.setArgv p.token.argc (some buf)
    return { p with token := { token with argc := token.argc + 1 }, parsing_state := .ST_NORMAL }
  | .ST_INFILE =>
    .ok { p with token := { p.token with infile := some buf }, parsing_state := .ST_NORMAL }
  | .ST_OUTFILE =>
    .ok { p with token := { p.token with outfile := some buf }, parsing_state := .ST_NORMAL }

/-- From "Terminate the token" on. -/
def Parse.terminate (p : Parse) (buf next : ℕ) : Except Stop Round := do
  let _buf ← p.token._buf.store next 0
  let p ← Parse.record { p with token := { p.token with _buf } } buf
  if MAXARGS - 1 ≤ p.token.argc then return .stop (.left { p with buf := buf })
  else return .again { p with buf := next + 1 }

/-- From "Check for I/O redirection specifiers" on; `c` is `*buf`. -/
def Parse.dispatch (p : Parse) (buf : ℕ) (c : UInt8) : Except Stop Round :=
  if c = 60 then -- '<'
    if p.token.infile.isSome then .ok (.stop (.failed p.token ambiguous))
    else .ok (.again { p with buf := buf + 1, parsing_state := .ST_INFILE })
  else if c = 62 then -- '>'
    if p.token.outfile.isSome then .ok (.stop (.failed p.token ambiguous))
    else .ok (.again { p with buf := buf + 1, parsing_state := .ST_OUTFILE })
  else if c = 39 ∨ c = 34 then do
    let buf := buf + 1
    match ← p.token._buf.strchr buf c with
    | none => return .stop (.failed p.token (unmatched (← p.token._buf.load (buf - 1))))
    | some next => p.terminate buf next
  else do
    let next := buf + (← p.token._buf.strcspn buf delims)
    p.terminate buf next

/-- The body of the loop. -/
def round (endbuf : ℕ) (p : Parse) : Except Stop Round := do
  let buf := p.buf + (← p.token._buf.strspn p.buf delims)
  if endbuf ≤ buf then return .stop (.left { p with buf := buf })
  else p.dispatch buf (← p.token._buf.load buf)

def scanLoop (endbuf : ℕ) : ℕ → Parse → Except Stop Scanned
  | 0, _ => .error .fuel
  | fuel + 1, p =>
    if p.buf < endbuf then do
      match ← round endbuf p with
      | .again p => scanLoop endbuf fuel p
      | .stop r => return r
    else .ok (.left p)

/-- What the command name says. -/
def builtin_of (command : Bytes) : BuiltinState :=
  if command = str "quit" then .BUILTIN_QUIT
  else if command = str "jobs" then .BUILTIN_JOBS
  else if command = str "bg" then .BUILTIN_BG
  else if command = str "fg" then .BUILTIN_FG
  else .BUILTIN_NONE

/-- What a call returns, the token structure after it, and what it wrote to `stderr`. -/
structure Parsed where
  ret : ParselineReturn
  token : CmdlineTokens
  stderr : String

/-- After the loop. -/
def Parse.finish (p : Parse) : Except Stop Parsed :=
  if p.parsing_state ≠ .ST_NORMAL then
    .ok ⟨.PARSELINE_ERROR, p.token, "Error: must provide file name for redirection\n"⟩
  else do
    let token ← p.token.setArgv p.token.argc none
    if token.argc = 0 then return ⟨.PARSELINE_EMPTY, token, ""⟩
    else do
      let command ← token._buf.string (← token.arg 0)
      let token := { token with builtin := builtin_of command }
      let c ← token._buf.load (← token.arg (token.argc - 1))
      if c = 38 then do -- '&'
        let token := { token with argc := token.argc - 1 }
        let token ← token.setArgv token.argc none
        return ⟨.PARSELINE_BG, token, ""⟩
      else return ⟨.PARSELINE_FG, token, ""⟩

def Scanned.result (verbose : Bool) : Scanned → Except Stop Parsed
  | .failed token message => .ok ⟨.PARSELINE_ERROR, token, if verbose then message else ""⟩
  | .left p => p.finish

def parseline (verbose : Bool) (cmdline : Option Bytes) (token : CmdlineTokens) (fuel : ℕ) :
    Except Stop Parsed :=
  match cmdline with
  | none =>
    .ok ⟨.PARSELINE_EMPTY, token, if verbose then "Error: command line is NULL\n" else ""⟩
  | some cmdline => do
    let _buf ← (Buffer.strncpy MAXLINE_TSH cmdline).store (MAXLINE_TSH - 1) 0
    let endbuf ← _buf.strlen 0
    let token := { token with _buf, argc := 0, infile := none, outfile := none }
    (← scanLoop endbuf fuel ⟨0, .ST_NORMAL, token⟩).result verbose

end Labs.Shell
