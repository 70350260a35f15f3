import Mathlib.Data.Finset.Basic
import SystemsLabs.Schemes.Text
import SystemsLabs.Schemes.Transition
import SystemsLabs.Shelllab.JobList

/-! @lab shelllab | file:tsh.c | scheme:transition | structure:shell, handlers and children

    The shell process as a system of three kinds of steps: its own code, the handler on top of its
    stack, and the world (children that change state, signals that arrive and are delivered). A step
    of the code is one call that touches the job list, the signal mask or the children. A handler
    runs when its signal is pending and not in the mask; `sigsuspend` replaces the mask until a
    handler has returned. Output is left out, and so is the parser: a command is whatever `parseline`
    may yield. What a child does on its own (`execve`, being continued or killed) is a step of the
    world, whether or not a signal of the shell asked for it. `log` is a ghost, latest first. -/

namespace Labs.Shell
open Schemes

inductive Signal where
  | SIGCHLD
  | SIGINT
  | SIGTSTP
  | other (n : ℕ)
  deriving DecidableEq, Repr

abbrev Mask := Finset Signal

/-- The `mask` of `eval` and of the handlers. -/
def blockMask : Mask := {.SIGCHLD, .SIGINT, .SIGTSTP}

/-- What `waitpid` reports. -/
inductive Status where
  | exited
  | signaled
  | stopped
  deriving DecidableEq, Repr

/-- A child that was not reaped yet; a stop is reported once. -/
inductive Child where
  | running
  | stopped (reported : Bool)
  | zombie (killed : Bool)
  deriving DecidableEq, Repr

/-- A child stops, continues, exits or is killed. -/
inductive Child.Next : Child → Child → Prop
  | stop : Next .running (.stopped false)
  | continue (reported : Bool) : Next (.stopped reported) .running
  | exit : Next .running (.zombie false)
  | kill : Next .running (.zombie true)
  | killStopped (reported : Bool) : Next (.stopped reported) (.zombie true)

/-- What `parseline` makes of a line; `arg` is `argv[1]`. -/
inductive Command where
  | nothing
  | launch (state : JobState) (cmdline : Bytes)
  | quit
  | jobs (outfile : Bool)
  | backFore (backg : Bool) (arg : Option Bytes)
  deriving DecidableEq, Repr

inductive Ended where
  | exit
  | halt (h : Halt)
  deriving DecidableEq, Repr

/-- Where `main` and `eval` are, before the call named. -/
inductive Main where
  | prompt
  | fork (state : JobState) (cmdline : Bytes)
  | forked (pid : ℤ) (state : JobState) (cmdline : Bytes)
  | announce (pid : ℤ)
  | waitTest
  | suspended (old : Mask) (woken : Bool)
  | unblock (close : Bool)
  | backFore (backg : Bool) (arg : Option Bytes)
  | resume (backg : Bool) (pid : ℤ)
  | again
  | listing (close : Bool)
  | closing
  | ended (why : Ended)
  deriving DecidableEq

/-- Where a handler is. -/
inductive HandlerPc where
  | entered
  | waiting
  | reaped (pid : ℤ) (status : Status)
  | forwarding
  | leaving
  | left
  deriving DecidableEq, Repr

/-- A running handler: its signal, the mask to return to, its own `prev`. -/
structure Handler where
  sig : Signal
  saved : Mask
  prev : Mask
  pc : HandlerPc
  deriving DecidableEq

inductive Event where
  | forked (pid : ℤ)
  | added (pid jid : ℤ)
  | resumed (pid : ℤ)
  | stopped (pid : ℤ)
  | reaped (pid : ℤ)
  deriving DecidableEq, Repr

/-- The shell process: `prev` is the one of `eval`. -/
structure Tsh where
  list : JobList
  main : Main
  handlers : List Handler
  mask : Mask
  prev : Mask
  pending : Mask
  children : ℤ → Option Child
  log : List Event

/-! ### The argument of `bg` and `fg` -/

inductive Refusal where
  /-- `%jid: No such job` -/
  | noSuchJob (jid : ℤ)
  /-- `argument must be a PID or %jobid` -/
  | notPidOrJid
  /-- `command requires PID or %jobid argument` -/
  | missing
  deriving DecidableEq, Repr

inductive Target where
  | refuse (why : Refusal)
  | act (jid pid : ℤ)
  deriving DecidableEq, Repr

/-- The first half of `builtin_back_fore`. `jid` and `pid` are what the variables hold when no
    conversion assigns them. -/
def backForeTarget (l : JobList) (arg : Option Bytes) (jid pid : ℤ) : Except Halt Target :=
  match arg with
  | none => .ok (.refuse .missing)
  | some text =>
    if text[0]? = some 37 then
      let scan := scanInt (text.drop 1)
      let jid := scan.orElse jid
      if l.job_exists jid then do
        let pid ← l.job_get_pid jid
        return if scan = .mismatch then .refuse .notPidOrJid else .act jid pid
      else .ok (.refuse (.noSuchJob jid))
    else
      let scan := scanInt text
      let pid := scan.orElse pid
      let jid := l.job_from_pid pid
      .ok (if scan = .mismatch then .refuse .notPidOrJid else .act jid pid)

/-- What the second half does before it signals the job: `bg` prints the command line. -/
def announceJob (l : JobList) (backg : Bool) (jid : ℤ) : Except Halt Unit :=
  if backg then do
    let _ ← l.job_get_cmdline jid
  else .ok ()

/-! ### Steps -/

namespace Tsh

def goto (s : Tsh) (pc : Main) : Tsh := { s with main := pc }

/-- `sigprocmask(SIG_BLOCK, &mask, &prev)` in `eval`. -/
def block (s : Tsh) (pc : Main) : Tsh :=
  { s with main := pc, prev := s.mask, mask := s.mask ∪ blockMask }

/-- `sigprocmask(SIG_SETMASK, &prev, NULL)` in `eval`. -/
def restore (s : Tsh) (pc : Main) : Tsh := { s with main := pc, mask := s.prev }

/-- The process ends. -/
def finish (s : Tsh) (why : Ended) : Tsh := { s with main := .ended why, handlers := [] }

def setList (s : Tsh) (l : JobList) : Tsh := { s with list := l }

def setChild (s : Tsh) (pid : ℤ) (c : Option Child) : Tsh :=
  { s with children := Function.update s.children pid c }

def record (s : Tsh) (e : Event) : Tsh := { s with log := e :: s.log }

/-- The handler on top goes on at `pc`. -/
def handle (s : Tsh) (f : Handler) (rest : List Handler) (pc : HandlerPc) : Tsh :=
  { s with handlers := { f with pc := pc } :: rest }

end Tsh

/-- A handler has returned into `sigsuspend`. -/
def Main.wake : Main → Main
  | .suspended old _ => .suspended old true
  | pc => pc

/-- Steps of `main`, `eval` and `builtin_back_fore`. -/
inductive MainStep (s : Tsh) : Tsh → Prop
  | forkOk (state cmdline pid) (h : s.main = .fork state cmdline) (hpid : 0 < pid)
      (hfree : s.children pid = none) :
      MainStep s (((s.goto (.forked pid state cmdline)).setChild pid (some .running)).record
        (.forked pid))
  | forkFails (state cmdline) (h : s.main = .fork state cmdline) :
      MainStep s (s.goto (.forked (-1) state cmdline))
  | addJob (state cmdline pid alloc l' jid) (h : s.main = .forked pid state cmdline)
      (hadd : s.list.add_job pid state (some cmdline) alloc = .ok (l', jid)) :
      MainStep s (((s.goto (if state = .BG then .announce pid else .waitTest)).setList l').record
        (.added pid jid))
  | addJobHalts (state cmdline pid alloc e) (h : s.main = .forked pid state cmdline)
      (hadd : s.list.add_job pid state (some cmdline) alloc = .error e) :
      MainStep s (s.finish (.halt e))
  | announce (pid) (h : s.main = .announce pid) : MainStep s (s.goto (.unblock false))
  | suspend (h : s.main = .waitTest) (hfg : s.list.fg_job > 0) :
      MainStep s { s with main := .suspended s.mask false, mask := s.prev }
  | wake (old) (h : s.main = .suspended old true) :
      MainStep s { s with main := .waitTest, mask := old }
  | waited (h : s.main = .waitTest) (hfg : ¬ s.list.fg_job > 0) :
      MainStep s (s.goto (.unblock false))
  | unblock (close) (h : s.main = .unblock close) :
      MainStep s (s.restore (if close then .closing else .prompt))
  | refuse (backg arg jid pid why) (h : s.main = .backFore backg arg)
      (htarget : backForeTarget s.list arg jid pid = .ok (.refuse why)) :
      MainStep s (s.restore .again)
  | targetHalts (backg arg jid pid e) (h : s.main = .backFore backg arg)
      (htarget : backForeTarget s.list arg jid pid = .error e) : MainStep s (s.finish (.halt e))
  | sendCont (backg arg jid₀ pid₀ jid pid) (h : s.main = .backFore backg arg)
      (htarget : backForeTarget s.list arg jid₀ pid₀ = .ok (.act jid pid))
      (hline : announceJob s.list backg jid = .ok ()) :
      MainStep s ((s.goto (.resume backg pid)).record (.resumed pid))
  | announceHalts (backg arg jid₀ pid₀ jid pid e) (h : s.main = .backFore backg arg)
      (htarget : backForeTarget s.list arg jid₀ pid₀ = .ok (.act jid pid))
      (hline : announceJob s.list backg jid = .error e) : MainStep s (s.finish (.halt e))
  | setState (backg pid l') (h : s.main = .resume backg pid)
      (hset : s.list.job_set_state (s.list.job_from_pid pid)
        (if backg then JobState.BG else .FG) = .ok l') :
      MainStep s ((s.goto (if backg then .unblock false else .waitTest)).setList l')
  | setStateHalts (backg pid e) (h : s.main = .resume backg pid)
      (hset : s.list.job_set_state (s.list.job_from_pid pid)
        (if backg then JobState.BG else .FG) = .error e) : MainStep s (s.finish (.halt e))
  | again (h : s.main = .again) : MainStep s (s.restore .prompt)
  | listed (close) (h : s.main = .listing close) : MainStep s (s.goto (.unblock close))
  | closed (h : s.main = .closing) : MainStep s (s.goto .prompt)
  | closeFails (h : s.main = .closing) : MainStep s (s.finish .exit)

/-- A command line at the prompt. -/
inductive CommandStep (s : Tsh) : Command → Tsh → Prop
  | nothing : CommandStep s .nothing s
  | launch (state cmdline) (h : state = .FG ∨ state = .BG) :
      CommandStep s (.launch state cmdline) (s.block (.fork state cmdline))
  | quit : CommandStep s .quit (s.finish .exit)
  | jobs (outfile) : CommandStep s (.jobs outfile) (s.block (.listing outfile))
  | openFails : CommandStep s (.jobs true) s
  | backFore (backg arg) : CommandStep s (.backFore backg arg) (s.block (.backFore backg arg))

/-- Steps of the handler on top of the stack. -/
inductive HandlerStep (s : Tsh) (f : Handler) (rest : List Handler) : Tsh → Prop
  | block (h : f.pc = .entered) :
      HandlerStep s f rest { s with
        handlers := { f with
          prev := s.mask, pc := if f.sig = .SIGCHLD then .waiting else .forwarding } :: rest
        mask := s.mask ∪ blockMask }
  | reap (pid killed) (h : f.pc = .waiting) (hchild : s.children pid = some (.zombie killed)) :
      HandlerStep s f rest (((s.handle f rest
        (.reaped pid (if killed then .signaled else .exited))).setChild pid none).record
        (.reaped pid))
  | reportStop (pid) (h : f.pc = .waiting) (hchild : s.children pid = some (.stopped false)) :
      HandlerStep s f rest (((s.handle f rest (.reaped pid .stopped)).setChild pid
        (some (.stopped true))).record (.stopped pid))
  | drained (h : f.pc = .waiting) (hzombie : ∀ pid killed, s.children pid ≠ some (.zombie killed))
      (hstop : ∀ pid, s.children pid ≠ some (.stopped false)) :
      HandlerStep s f rest (s.handle f rest .leaving)
  | deleteJob (pid status l' found) (h : f.pc = .reaped pid status) (hstatus : status ≠ .stopped)
      (hdel : s.list.delete_job (s.list.job_from_pid pid) = .ok (l', found)) :
      HandlerStep s f rest ((s.handle f rest .waiting).setList l')
  | deleteHalts (pid status e) (h : f.pc = .reaped pid status) (hstatus : status ≠ .stopped)
      (hdel : s.list.delete_job (s.list.job_from_pid pid) = .error e) :
      HandlerStep s f rest (s.finish (.halt e))
  | markStopped (pid l') (h : f.pc = .reaped pid .stopped)
      (hset : s.list.job_set_state (s.list.job_from_pid pid) .ST = .ok l') :
      HandlerStep s f rest ((s.handle f rest .waiting).setList l')
  | markHalts (pid e) (h : f.pc = .reaped pid .stopped)
      (hset : s.list.job_set_state (s.list.job_from_pid pid) .ST = .error e) :
      HandlerStep s f rest (s.finish (.halt e))
  | forward (h : f.pc = .forwarding)
      (hpid : s.list.fg_job > 0 → ∃ pid, s.list.job_get_pid s.list.fg_job = .ok pid) :
      HandlerStep s f rest (s.handle f rest .leaving)
  | forwardHalts (e) (h : f.pc = .forwarding) (hfg : s.list.fg_job > 0)
      (hpid : s.list.job_get_pid s.list.fg_job = .error e) : HandlerStep s f rest (s.finish (.halt e))
  | unblock (h : f.pc = .leaving) :
      HandlerStep s f rest { s.handle f rest .left with mask := f.prev }
  | ret (h : f.pc = .left) :
      HandlerStep s f rest { s with
        handlers := rest
        mask := f.saved
        main := if rest = [] then s.main.wake else s.main }

/-- Steps of the world: a child changes, a signal arrives, a pending signal is delivered, or a signal
    ends the shell (`sigquit_handler` exits). -/
inductive WorldStep (s : Tsh) : Tsh → Prop
  | fatal : WorldStep s (s.finish .exit)
  | change (pid c c') (h : s.children pid = some c) (hnext : c.Next c') :
      WorldStep s { s.setChild pid (some c') with pending := insert .SIGCHLD s.pending }
  | arrive (sig) : WorldStep s { s with pending := insert sig s.pending }
  | deliver (sig) (hsig : sig ∈ blockMask) (hpending : sig ∈ s.pending) (hmask : sig ∉ s.mask)
      (hrun : ∀ why, s.main ≠ .ended why) :
      WorldStep s { s with
        pending := s.pending.erase sig
        mask := insert sig s.mask
        handlers := ⟨sig, s.mask, s.mask, .entered⟩ :: s.handlers }

/-- Who takes a step. -/
inductive Label where
  | command (c : Command)
  | main
  | handler
  | world
  deriving DecidableEq, Repr

def Tsh.Step (s : Tsh) : Label → Tsh → Prop
  | .command c, s' => s.main = .prompt ∧ s.handlers = [] ∧ CommandStep s c s'
  | .main, s' => s.handlers = [] ∧ MainStep s s'
  | .handler, s' => ∃ f rest, s.handlers = f :: rest ∧ HandlerStep s f rest s'
  | .world, s' => WorldStep s s'

/-- The shell from `init_job_list` on, whatever mask it inherited. -/
def tsh : System Tsh Label where
  init s := s.list = init_job_list ∧ s.main = .prompt ∧ s.handlers = [] ∧
    (∀ pid, s.children pid = none) ∧ s.log = []
  step := Tsh.Step

end Labs.Shell
