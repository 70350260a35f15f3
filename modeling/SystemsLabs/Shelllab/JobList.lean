import Mathlib.Data.List.FinRange
import Mathlib.Logic.Function.Basic

/-! @lab shelllab | file:tsh_helper.c (job list) | structure:job table

    The job list is an array of 64 slots and a counter that only `delete_job` computes anew. A helper
    that calls `abort` ends the shell: it returns a `Halt`, one for each place that aborts. Messages
    under `verbose` are left out; `alloc` says whether `realloc` succeeds. -/

namespace Labs.Shell

abbrev Bytes := List UInt8

def MAXJOBS : ℕ := 64

inductive JobState where
  | UNDEF
  | FG
  | BG
  | ST
  deriving DecidableEq, Repr

/-- `struct job_t`; no command line is `NULL`. -/
structure Job where
  pid : ℤ
  jid : ℤ
  state : JobState
  cmdline : Option Bytes
  deriving DecidableEq, Repr

structure JobList where
  job_list : Fin MAXJOBS → Job
  nextjid : ℤ

/-- How the shell can end inside a helper. -/
inductive Halt where
  /-- `get_job: invalid jid` -/
  | invalidJid
  /-- `FATAL: func: invalid JID argument jid` -/
  | noSuchJob (func : String) (jid : ℤ)
  /-- `FATAL: job_set_state: invalid job state` -/
  | invalidState
  /-- `FATAL: job_set_state: cannot make jid the foreground job when another job fg is also ...` -/
  | otherForeground (jid fg : ℤ)
  /-- `add_job: foreground job already exists` -/
  | foregroundExists
  /-- `add_job: invalid job state` -/
  | badState
  /-- `add_job: invalid pid` -/
  | badPid
  /-- `add_job: missing command line` -/
  | missingCmdline
  /-- a failed `sio_assert` -/
  | assertion (expr : String)
  /-- `Realloc error` -/
  | realloc
  deriving DecidableEq, Repr

/-- The job ID of a slot. -/
def jidOf (i : Fin MAXJOBS) : ℤ := i + 1

def get_job (jid : ℤ) : Except Halt (Fin MAXJOBS) :=
  if h : jid < 1 ∨ jid > MAXJOBS then .error .invalidJid
  else .ok ⟨(jid - 1).toNat, by omega⟩

def clearjob (job : Job) : Job := { job with pid := 0, jid := 0, state := .UNDEF }

def init_job_list : JobList := ⟨fun _ => ⟨0, 0, .UNDEF, none⟩, 1⟩

namespace JobList
variable (l : JobList)

def state (i : Fin MAXJOBS) : JobState := (l.job_list i).state

/-- Store a job in a slot. -/
def put (i : Fin MAXJOBS) (job : Job) : JobList :=
  { l with job_list := Function.update l.job_list i job }

def job_exists (jid : ℤ) : Bool :=
  match get_job jid with
  | .error _ => false
  | .ok i => l.state i ≠ .UNDEF

/-- The job ID of the first of the slots that passes a test, 0 if there is none. -/
def firstJid (slots : List (Fin MAXJOBS)) (test : Fin MAXJOBS → Bool) : ℤ :=
  ((slots.find? test).map jidOf).getD 0

def maxjid : ℤ := firstJid (List.finRange MAXJOBS).reverse fun i => l.job_exists (jidOf i)

def fg_job : ℤ := firstJid (List.finRange MAXJOBS) fun i => l.state i = .FG

def job_from_pid (pid : ℤ) : ℤ :=
  if pid < 1 then 0
  else firstJid (List.finRange MAXJOBS) fun i => l.state i ≠ .UNDEF ∧ (l.job_list i).pid = pid

def require_job_exists (func : String) (jid : ℤ) : Except Halt Unit :=
  if l.job_exists jid then .ok () else .error (.noSuchJob func jid)

def require_valid_state (jid : ℤ) (state : JobState) : Except Halt Unit :=
  if state ≠ .FG ∧ state ≠ .BG ∧ state ≠ .ST then .error .invalidState
  else if state = .FG ∧ l.fg_job ≠ 0 then .error (.otherForeground jid l.fg_job)
  else .ok ()

def add_job (pid : ℤ) (state : JobState) (cmdline : Option Bytes) (alloc : Bool) :
    Except Halt (JobList × ℤ) :=
  if ¬ ((state = .FG ∧ l.fg_job = 0) ∨ state = .BG ∨ state = .ST) then
    if state = .FG then .error .foregroundExists else .error .badState
  else if pid ≤ 0 then .error .badPid
  else
    match cmdline with
    | none => .error .missingCmdline
    | some text =>
      if ¬ 0 < l.nextjid then .error (.assertion "nextjid > 0")
      else if l.nextjid > MAXJOBS then .ok (l, 0)
      else do
        let i ← get_job l.nextjid
        if l.state i ≠ .UNDEF then .error (.assertion "job->state == UNDEF")
        else if ¬ alloc then .error .realloc
        else .ok ({ l.put i ⟨pid, l.nextjid, state, some text⟩ with nextjid := l.nextjid + 1 },
          l.nextjid)

def delete_job (jid : ℤ) : Except Halt (JobList × Bool) :=
  if l.job_exists jid then do
    let i ← get_job jid
    let l := l.put i (clearjob (l.job_list i))
    if ¬ 0 < l.maxjid + 1 then .error (.assertion "nextjid > 0")
    else .ok ({ l with nextjid := l.maxjid + 1 }, true)
  else .ok (l, false)

def job_set_state (jid : ℤ) (state : JobState) : Except Halt JobList := do
  l.require_job_exists "job_set_state" jid
  l.require_valid_state jid state
  let i ← get_job jid
  return l.put i { l.job_list i with state := state }

def job_get_pid (jid : ℤ) : Except Halt ℤ := do
  l.require_job_exists "job_get_pid" jid
  let i ← get_job jid
  return (l.job_list i).pid

def job_get_cmdline (jid : ℤ) : Except Halt (Option Bytes) := do
  l.require_job_exists "job_get_cmdline" jid
  let i ← get_job jid
  return (l.job_list i).cmdline

end JobList

end Labs.Shell
