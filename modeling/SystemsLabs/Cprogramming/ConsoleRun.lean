import SystemsLabs.Cprogramming.ConsoleCommands
import SystemsLabs.Cprogramming.ConsoleLines
import SystemsLabs.Schemes.Loop

/-! @lab cprogramminglab | file:console.c (cmd_select, run_console) | structure:refinement by texts |
    main result:a run depends on the texts of the files

    Over the texts of the files the console is a simple machine (`scriptLoop`): take a line of the
    text on top, interpret it, and so on until nothing is left or the console has quit. The code reads
    pieces into buffers, and goes through the lines of a buffer before it asks whether it has quit.
    Both come to the same, but for lines that are echoed after the console has quit over its errors. -/

namespace Labs.Cmdline
open Schemes
variable {ι U σ τ : Type} {env : Env ι U} {f : σ → τ} {opens : Opens U σ}
  {take : σ → Option Bytes × Option σ} {take' : τ → Option Bytes × Option τ}

/-! ### The stack is only passed on -/

def Console.map (f : σ → τ) (s : Console ι U σ) : Console ι U τ := ⟨s.buf_stack.map f, s.globals⟩

/-- The result of a command, with the stack changed. -/
def mapResult {α : Type} (f : σ → τ) (r : α × Console ι U σ) : α × Console ι U τ := (r.1, r.2.map f)

/-- The same files, for another stack. -/
def mapFiles (f : σ → τ) (opens : Opens U σ) : Opens U τ :=
  fun files u name => (opens files u name).map f

theorem map_length (s : Console ι U σ) : (s.map f).buf_stack.length = s.buf_stack.length :=
  List.length_map f

/-- What is passed on goes through a sequence. -/
theorem bind_map {α α' β β' : Type} {m : α → α'} {m' : β → β'} {k : α → Except Stop β}
    {k' : α' → Except Stop β'} (hk : ∀ a, k' (m a) = (k a).map m') (r : Except Stop α) :
    (r.map m >>= k') = (r >>= k).map m' := by
  cases r with
  | error e => rfl
  | ok a => exact hk a

theorem report_map (s : Console ι U σ) (level : ℤ) (text : Bytes) :
    (s.map f).report level text = (s.report level text).map (Console.map f) := by
  simp only [Console.report, Console.map]
  cases s.globals.report level text <;> rfl

theorem tellTime_map (r : Bool × Console ι U σ) :
    tellTime (mapResult f r) = (tellTime r).map (mapResult f) := by
  simp only [tellTime, mapResult, Console.map]
  cases r.2.globals.report_noreturn 1 [] <;> rfl

theorem do_source_map (s : Console ι U σ) (argv : List Bytes) :
    (s.map f).do_source_cmd (mapFiles f opens) argv =
      (s.do_source_cmd opens argv).map (mapResult f) := by
  have htell : ∀ text, ((s.map f).report 1 text >>= fun s => Except.ok (false, s)) =
      (s.report 1 text >>= fun s => Except.ok (false, s)).map (mapResult f) := fun text => by
    rw [report_map]
    cases s.report 1 text <;> rfl
  unfold Console.do_source_cmd
  cases argv[1]? with
  | none => exact htell _
  | some name =>
    have huser : (s.map f).globals.user = s.globals.user := rfl
    simp only [mapFiles, map_length, huser]
    cases opens s.buf_stack.length s.globals.user name with
    | none => exact htell _
    | some e => rfl

theorem perform_map (s : Console ι U σ) (argv : List Bytes) (op : Op ι) :
    (s.map f).perform env (mapFiles f opens) argv op =
      (s.perform env opens argv op).map (mapResult f) := by
  cases op with
  | help =>
    simp only [Console.perform, Console.map]
    cases s.globals.do_help_cmd env <;> rfl
  | option =>
    simp only [Console.perform, map_length]
    simp only [Console.map]
    cases s.globals.do_option_cmd env s.buf_stack.length argv <;> rfl
  | quit =>
    simp only [Console.perform, Console.map]
    cases s.globals.do_quit_cmd env argv <;> rfl
  | source => exact do_source_map s argv
  | log =>
    simp only [Console.perform, map_length]
    simp only [Console.map]
    cases s.globals.do_log_cmd env s.buf_stack.length argv <;> rfl
  | time => rfl
  | comment =>
    simp only [Console.perform, Console.map]
    cases s.globals.do_comment_cmd argv <;> rfl
  | user i =>
    simp only [Console.perform, map_length]
    rfl

theorem recordUnless_map (s : Console ι U σ) (ok : Bool) :
    (s.map f).recordUnless ok = (s.recordUnless ok).map (Console.map f) := by
  cases ok with
  | true => rfl
  | false =>
    simp only [Console.recordUnless, Console.map]
    cases s.globals.record_error <;> rfl

theorem interpret_cmda_map : ∀ (argv : List Bytes) (s : Console ι U σ),
    interpret_cmda env (mapFiles f opens) argv (s.map f) =
      (interpret_cmda env opens argv s).map (mapResult f)
  | [], s => rfl
  | name :: args, s => by
      have hcmds : (s.map f).globals.commands = s.globals.commands := rfl
      have hrecord : ∀ (ok : Bool) (s : Console ι U σ),
          ((s.map f).recordUnless ok >>= fun s => Except.ok (ok, s)) =
            (s.recordUnless ok >>= fun s => Except.ok (ok, s)).map (mapResult f) := fun ok s => by
        rw [recordUnless_map]
        cases s.recordUnless ok <;> rfl
      rw [interpret_cmda, interpret_cmda, hcmds]
      cases s.globals.commands with
      | error e => rfl
      | ok cmds =>
        rw [ok_bind, ok_bind]
        cases cmds.find? (·.name = name) with
        | none =>
          simp only [report_map]
          exact bind_map (hrecord false) _
        | some cmd =>
          have hafter : ∀ r : Except Stop (Bool × Console ι U σ),
              ((r.map (mapResult f)) >>= fun x => x.2.recordUnless x.1 >>= fun s => .ok (x.1, s)) =
                (r >>= fun x => x.2.recordUnless x.1 >>= fun s => .ok (x.1, s)).map (mapResult f) :=
            fun r => bind_map (fun x => hrecord x.1 x.2) r
          cases hop : cmd.operation with
          | time =>
            simp only [hop, interpret_cmda_map args s]
            rw [bind_map tellTime_map]
            exact hafter _
          | _ =>
            simp only [hop, perform_map]
            exact hafter _

theorem interpret_cmd_map (cmdline : Bytes) (s : Console ι U σ) :
    interpret_cmd env (mapFiles f opens) cmdline (s.map f) =
      (interpret_cmd env opens cmdline s).map (mapResult f) := by
  by_cases hquit : s.globals.quit_flag = true
  · have hquit' : (s.map f).globals.quit_flag = true := hquit
    rw [interpret_cmd, interpret_cmd, if_pos hquit, if_pos hquit']
    rfl
  · have hquit' : ¬ (s.map f).globals.quit_flag = true := hquit
    rw [interpret_cmd, interpret_cmd, if_neg hquit, if_neg hquit']
    change (parse_args (cstr cmdline) (env.block s.globals.user _) >>= _) = _
    cases parse_args (cstr cmdline) (env.block s.globals.user _) with
    | error e => rfl
    | ok argv => exact interpret_cmda_map argv s

section Take
variable (htake : ∀ e, take' (f e) = ((take e).1, (take e).2.map f))
include htake

theorem readline_map (s : Console ι U σ) :
    readline take' (s.map f) = (readline take s).map (mapResult f) := by
  obtain ⟨stack, g⟩ := s
  cases stack with
  | nil => rfl
  | cons e stack =>
    simp only [readline, Console.map, List.map_cons, htake]
    have hstack : ((take e).2.map f).toList ++ stack.map f = ((take e).2.toList ++ stack).map f := by
      cases (take e).2 <;> rfl
    rw [hstack]
    cases (take e).1 with
    | none => rfl
    | some line =>
      simp only
      cases g.echoLine line <;> rfl

theorem readAndInterpret_map (s : Console ι U σ) :
    readAndInterpret env (mapFiles f opens) take' (s.map f) =
      (readAndInterpret env opens take s).map (Console.map f) := by
  rw [readAndInterpret, readAndInterpret, readline_map htake]
  cases readline take s with
  | error e => rfl
  | ok r =>
    obtain ⟨line, s'⟩ := r
    cases line with
    | none => rfl
    | some cmdline =>
      simp only [Except.map, mapResult, ok_bind, interpret_cmd_map]
      cases interpret_cmd env opens cmdline s' <;> rfl

end Take

/-! ### Line by line -/

/-- Take a line and interpret it, until nothing is left or the console has quit. -/
def lineLoop (env : Env ι U) (opens : Opens U σ) (take : σ → Option Bytes × Option σ) :
    ℕ → Console ι U σ → Except Stop (Console ι U σ)
  | 0, _ => .error .fuel
  | k + 1, s =>
    if cmd_done s then .ok s
    else do
      let s ← readAndInterpret env opens take s
      lineLoop env opens take k s

theorem lineLoop_map (htake : ∀ e, take' (f e) = ((take e).1, (take e).2.map f)) :
    ∀ (k : ℕ) (s : Console ι U σ), lineLoop env (mapFiles f opens) take' k (s.map f) =
      (lineLoop env opens take k s).map (Console.map f)
  | 0, s => rfl
  | k + 1, s => by
      have hdone : cmd_done (s.map f) = cmd_done s := by
        simp [cmd_done, Console.map]
      rw [lineLoop, lineLoop, hdone]
      by_cases h : cmd_done s = true
      · rw [if_pos h, if_pos h]
        rfl
      · rw [if_neg h, if_neg h, readAndInterpret_map htake]
        cases readAndInterpret env opens take s with
        | error e => rfl
        | ok s' => exact lineLoop_map htake k s'

/-- A line comes from the file on top, and what is left of that is on top then. -/
theorem readline_from {s s₁ : Console ι U σ} {line : Option Bytes}
    (h : readline take s = .ok (line, s₁)) : (s.buf_stack = [] ∧ line = none ∧ s₁ = s) ∨
      ∃ e stack, s.buf_stack = e :: stack ∧ line = (take e).1 ∧
        s₁.buf_stack = (take e).2.toList ++ stack := by
  obtain ⟨stack, g⟩ := s
  cases stack with
  | nil =>
    cases h
    exact Or.inl ⟨rfl, rfl, rfl⟩
  | cons e stack =>
    refine Or.inr ⟨e, stack, rfl, ?_⟩
    cases htop : (take e).1 with
    | none =>
      simp only [readline, htop] at h
      cases h
      exact ⟨rfl, rfl⟩
    | some l =>
      simp only [readline, htop] at h
      obtain ⟨g', _, heq⟩ := bind_ok h
      cases heq
      exact ⟨rfl, rfl⟩

theorem readline_stack {P : σ → Prop} {s s₁ : Console ι U σ} {line : Option Bytes}
    (htake : ∀ e e', (take e).2 = some e' → P e → P e') (h : ∀ e ∈ s.buf_stack, P e)
    (hread : readline take s = .ok (line, s₁)) : ∀ e ∈ s₁.buf_stack, P e := by
  rcases readline_from hread with ⟨-, -, rfl⟩ | ⟨e, stack, hstack, -, hleft⟩
  · exact h
  · rw [hstack] at h
    intro e' he'
    rw [hleft, List.mem_append, Option.mem_toList] at he'
    exact he'.elim (fun he' => htake e e' he' (h e List.mem_cons_self))
      fun he' => h e' (List.mem_cons_of_mem e he')

/-- Every file that is on the stack has been opened, or is what is left of one. -/
theorem readAndInterpret_stack {P : σ → Prop} {s s' : Console ι U σ}
    (hopens : ∀ files u name e, opens files u name = some e → P e)
    (htake : ∀ e e', (take e).2 = some e' → P e → P e') (h : ∀ e ∈ s.buf_stack, P e)
    (hrun : readAndInterpret env opens take s = .ok s') : ∀ e ∈ s'.buf_stack, P e := by
  obtain ⟨⟨line, s₁⟩, hread, hrest⟩ := bind_ok hrun
  have h₁ : ∀ e ∈ s₁.buf_stack, P e := readline_stack htake h hread
  cases line with
  | none =>
    cases hrest
    exact h₁
  | some cmdline =>
    obtain ⟨r, hcmd, heq⟩ := bind_ok hrest
    cases heq
    obtain ⟨hcarries, -⟩ := (interpret_cmd_meets cmdline s₁).sound r hcmd
    intro e he
    rcases hcarries.stack e he with hold | ⟨files, u, name, hopen⟩
    · exact h₁ e hold
    · exact hopens files u name e hopen

/-! ### What is echoed after the end -/

/-- Of a report there is the output at most. -/
theorem report_noreturn_out {g g' : Globals ι U} {level : ℤ} {text : Bytes}
    (h : g.report_noreturn level text = .ok g') :
    g' = { g with out := g.out ++ if level ≤ g.verblevel then text else [] } := by
  rw [Globals.report_noreturn] at h
  split at h
  · rename_i hlevel
    split at h
    · cases h
    · rw [if_pos hlevel]
      exact (Except.ok.inj h).symm
  · rename_i hlevel
    rw [if_neg hlevel, List.append_nil]
    exact (Except.ok.inj h).symm

/-- Only the output has grown, and only if lines are echoed. -/
theorem echoLine_out {g g' : Globals ι U} {line : Bytes} (h : g.echoLine line = .ok g') :
    ∃ text, g' = { g with out := g.out ++ text } ∧ (text ≠ [] → g.echo ≠ 0) := by
  have hformat : ∀ {g g' : Globals ι U} {fmt : Bytes}, g.reportFormat 1 fmt = .ok g' →
      ∃ text, g' = { g with out := g.out ++ text } := by
    intro g g' fmt h
    rw [Globals.reportFormat] at h
    split at h
    · obtain ⟨text, _, hout⟩ := bind_ok h
      exact ⟨_, report_noreturn_out hout⟩
    · exact ⟨[], by rw [List.append_nil]; exact (Except.ok.inj h).symm⟩
  rw [Globals.echoLine] at h
  split at h
  · rename_i hecho
    obtain ⟨g₁, hprompt, hline⟩ := bind_ok h
    obtain ⟨text₁, rfl⟩ := hformat hprompt
    obtain ⟨text₂, rfl⟩ := hformat hline
    exact ⟨text₁ ++ text₂, by rw [List.append_assoc], fun _ => hecho⟩
  · exact ⟨[], by rw [List.append_nil]; exact (Except.ok.inj h).symm, fun h => absurd rfl h⟩

/-- Nothing has changed but the rest of the file, and lines may have been echoed from it. -/
def Echoed (s : Console ι U σ) (s' : Console ι U τ) : Prop :=
  ∃ text, s'.globals = { s.globals with out := s.globals.out ++ text } ∧
    (s'.buf_stack = [] ↔ s.buf_stack = []) ∧
    (text ≠ [] → s.globals.quit_flag = true ∧ s.buf_stack ≠ [] ∧ s.globals.echo ≠ 0)

theorem Echoed.refl (s : Console ι U σ) : Echoed s s :=
  ⟨[], by rw [List.append_nil], Iff.rfl, fun h => absurd rfl h⟩

theorem Echoed.trans {υ : Type} {s : Console ι U σ} {s' : Console ι U τ} {s'' : Console ι U υ}
    (h : Echoed s s') (h' : Echoed s' s'') : Echoed s s'' := by
  obtain ⟨text, hg, hstack, htext⟩ := h
  obtain ⟨text', hg', hstack', htext'⟩ := h'
  refine ⟨text ++ text', ?_, hstack'.trans hstack, fun hne => ?_⟩
  · rw [hg', hg, List.append_assoc]
  · by_cases hnone : text = []
    · have hlast := htext' fun h => hne (by rw [hnone, h, List.append_nil])
      rw [hg] at hlast
      exact ⟨hlast.1, fun h => hlast.2.1 (hstack.mpr h), hlast.2.2⟩
    · exact htext hnone

/-- It has quit over its errors, and does not echo. -/
def Quiet (s : Console ι U σ) : Prop :=
  s.globals.quit_flag = true → s.buf_stack ≠ [] → s.globals.echo = 0

theorem Echoed.globals {s : Console ι U σ} {s' : Console ι U τ} (h : Echoed s s')
    (hquiet : Quiet s) : s'.globals = s.globals := by
  obtain ⟨text, hg, _, htext⟩ := h
  have hnone : text = [] := by
    by_contra hne
    obtain ⟨hquit, hstack, hecho⟩ := htext hne
    exact hecho (hquiet hquit hstack)
  rw [hg, hnone, List.append_nil]

theorem Echoed.quiet {s : Console ι U σ} {s' : Console ι U τ} (h : Echoed s s')
    (hquiet : Quiet s') : Quiet s := by
  obtain ⟨text, hg, hstack, _⟩ := h
  intro hquit hne
  have hecho := hquiet (by rw [hg]; exact hquit) fun h => hne (hstack.mp h)
  rw [hg] at hecho
  exact hecho

theorem Echoed.done {s : Console ι U σ} {s' : Console ι U τ} (h : Echoed s s') :
    cmd_done s' = cmd_done s := by
  obtain ⟨text, hg, hstack, _⟩ := h
  have hempty : s'.buf_stack.isEmpty = s.buf_stack.isEmpty := by
    rw [Bool.eq_iff_iff, List.isEmpty_iff, List.isEmpty_iff]
    exact hstack
  rw [cmd_done, cmd_done, hg, hempty]

section Code
variable {openFile : Opens U Opened} {s s' u : Console ι U RioEle} {k : ℕ}

/-- The code's step. -/
abbrev consoleStep (env : Env ι U) (openFile : Opens U Opened)
    (s : Console ι U RioEle) : Except Stop (Console ι U RioEle) :=
  readAndInterpret env (rioOpen openFile) RioEle.readline s

/-- The number of bytes in the buffer on top. -/
def buffered (s : Console ι U RioEle) : ℕ := s.buf_stack.head?.elim 0 fun e => e.buf.length

/-- With a line in the buffer after the end, the step takes the line and echoes it. -/
theorem consoleStep_done (hready : read_ready s = true) (hdone : cmd_done s = true) :
    ∃ line e stack, e.buf.length < buffered s ∧ s.buf_stack ≠ [] ∧ s.globals.quit_flag = true ∧
      consoleStep env openFile s = s.globals.echoLine line >>= fun g => .ok ⟨e :: stack, g⟩ := by
  obtain ⟨stack, g⟩ := s
  cases stack with
  | nil => cases hready
  | cons e stack =>
    have hbuf : 10 ∈ e.buf := by simpa [read_ready] using hready
    have hquit : g.quit_flag = true := by simpa [cmd_done] using hdone
    obtain ⟨line, buf, hrun, hlen⟩ := @readLoop_ready (RIO_BUFSIZE - 3) [] e hbuf
    have htake : e.readline = (some line, some { e with buf := buf }) := hrun
    refine ⟨line, { e with buf := buf }, stack, hlen, List.cons_ne_nil e stack, hquit, ?_⟩
    simp only [consoleStep, readAndInterpret, readline, htake]
    cases hecho : g.echoLine line with
    | error e => rfl
    | ok g' =>
      obtain ⟨text, rfl, _⟩ := echoLine_out hecho
      simp [interpret_cmd, hquit]

/-- After the end the loop over the buffer only echoes, -/
theorem drain_done : ∀ {k : ℕ} {s : Console ι U RioEle}, cmd_done s = true →
    drain env openFile k s = .ok u → Echoed s u
  | 0, s, _, hrun => by cases hrun
  | k + 1, s, hdone, hrun => by
      rw [drain] at hrun
      split at hrun
      · rename_i hready
        obtain ⟨s₁, hstep, hrest⟩ := bind_ok hrun
        obtain ⟨line, e, stack, _, hstack, hquit, heq⟩ := consoleStep_done hready hdone
        rw [← consoleStep, heq] at hstep
        obtain ⟨g, hecho, hs₁⟩ := bind_ok hstep
        obtain ⟨text, hg, htext⟩ := echoLine_out hecho
        have hechoed : Echoed s s₁ := by
          rw [← Except.ok.inj hs₁]
          exact ⟨text, hg, by simp [hstack], fun hne => ⟨hquit, hstack, htext hne⟩⟩
        exact hechoed.trans (drain_done (hechoed.done.trans hdone) hrest)
      · exact Except.ok.inj hrun ▸ Echoed.refl s

/-- and it comes to the end of the buffer, if nothing is echoed. -/
theorem drain_quiet (hdone : cmd_done s = true) (hquiet : Quiet s) :
    ∃ k u, drain env openFile k s = .ok u := by
  induction hn : buffered s using Nat.strong_induction_on generalizing s with
  | _ n ih =>
    by_cases hready : read_ready s = true
    · obtain ⟨line, e, stack, hlen, hstack, hquit, heq⟩ :=
        @consoleStep_done _ _ env openFile s hready hdone
      have hecho : s.globals.echoLine line = .ok s.globals := by
        rw [Globals.echoLine, if_neg (by simpa using hquiet hquit hstack)]
      rw [hecho, ok_bind] at heq
      obtain ⟨k, u, hrun⟩ := @ih e.buf.length (by omega) ⟨e :: stack, s.globals⟩
        (by simp [cmd_done, hquit]) (fun _ _ => hquiet hquit hstack) rfl
      exact ⟨k + 1, u, by rw [drain, if_pos hready, ← consoleStep, heq]; exact hrun⟩
    · exact ⟨1, s, by rw [drain, if_neg hready]⟩

/-! ### Fuel -/

theorem lineLoop_more : ∀ {k : ℕ} {s t : Console ι U σ}, lineLoop env opens take k s = .ok t →
    lineLoop env opens take (k + 1) s = .ok t
  | 0, _, _, hrun => by cases hrun
  | k + 1, s, t, hrun => by
      rw [lineLoop] at hrun ⊢
      split at hrun
      · rename_i hdone
        rw [if_pos hdone]
        exact hrun
      · rename_i hdone
        obtain ⟨s₁, hstep, hrest⟩ := bind_ok hrun
        rw [if_neg hdone, hstep, ok_bind]
        exact lineLoop_more hrest

theorem drain_more : ∀ {k : ℕ} {s : Console ι U RioEle}, drain env openFile k s = .ok u →
    drain env openFile (k + 1) s = .ok u
  | 0, _, hrun => by cases hrun
  | k + 1, s, hrun => by
      rw [drain] at hrun ⊢
      split at hrun
      · rename_i hready
        obtain ⟨s₁, hstep, hrest⟩ := bind_ok hrun
        rw [if_pos hready, hstep, ok_bind]
        exact drain_more hrest
      · rename_i hready
        rw [if_neg hready]
        exact hrun

theorem cmd_select_more (hrun : cmd_select env openFile k s = .ok u) :
    cmd_select env openFile (k + 1) s = .ok u := by
  obtain ⟨s₁, hdrain, hrest⟩ := bind_ok hrun
  rw [cmd_select, drain_more hdrain]
  exact hrest

theorem consoleLoop_more : ∀ {k : ℕ} {s t : Console ι U RioEle},
    consoleLoop env openFile k s = .ok t → consoleLoop env openFile (k + 1) s = .ok t
  | 0, _, _, hrun => by cases hrun
  | k + 1, s, t, hrun => by
      rw [consoleLoop] at hrun ⊢
      split at hrun
      · rename_i hdone
        rw [if_pos hdone]
        exact hrun
      · rename_i hdone
        obtain ⟨s₁, hselect, hrest⟩ := bind_ok hrun
        rw [if_neg hdone, cmd_select_more hselect, ok_bind]
        exact consoleLoop_more hrest

/-! ### The code goes line by line -/

theorem consoleLoop_done (hdone : cmd_done s = true) :
    consoleLoop env openFile (k + 1) s = .ok s := by rw [consoleLoop, if_pos hdone]

/-- One line more in front. -/
theorem consoleLoop_step {t : Console ι U RioEle} (hdone : ¬ cmd_done s = true) (hset : setOk s = true)
    (hstep : consoleStep env openFile s = .ok s') (hquiet : cmd_done s' = true → Quiet s')
    (hrun : consoleLoop env openFile k s' = .ok t) :
    ∃ j t', consoleLoop env openFile j s = .ok t' ∧ t'.globals = t.globals := by
  cases k with
  | zero => cases hrun
  | succ k =>
    by_cases hready : read_ready s = true
    · have hdrain : ∀ j, drain env openFile (j + 1) s = drain env openFile j s' := fun j => by
        rw [drain, if_pos hready, ← consoleStep, hstep, ok_bind]
      by_cases hdone' : cmd_done s' = true
      · rw [consoleLoop_done hdone'] at hrun
        cases hrun
        obtain ⟨j, u, hrest⟩ := drain_quiet hdone' (hquiet hdone')
        have hechoed := drain_done hdone' hrest
        have hend : cmd_done u = true := hechoed.done.trans hdone'
        refine ⟨j + 2, u, ?_, hechoed.globals (hquiet hdone')⟩
        rw [consoleLoop, if_neg hdone, cmd_select, hdrain, hrest, ok_bind, if_pos hend, ok_bind,
          consoleLoop_done hend]
      · -- The rest of the buffer is gone through as it would be from the next line on.
        have hselect : cmd_select env openFile (k + 1) s = cmd_select env openFile k s' := by
          rw [cmd_select, cmd_select, hdrain]
        rw [consoleLoop, if_neg hdone'] at hrun
        obtain ⟨v, hnext, hrest⟩ := bind_ok hrun
        refine ⟨k + 2, t, ?_, rfl⟩
        rw [consoleLoop, if_neg hdone, hselect, hnext, ok_bind]
        exact consoleLoop_more hrest
    · have hdrain : drain env openFile (k + 1 + 1) s = .ok s := by rw [drain, if_neg hready]
      refine ⟨k + 1 + 1 + 1, t, ?_, rfl⟩
      rw [consoleLoop, if_neg hdone, cmd_select, hdrain, ok_bind, if_neg hdone,
        if_neg (not_not.mpr hset), ← consoleStep, hstep, ok_bind]
      exact consoleLoop_more hrun

/-- Every descriptor goes into an `fd_set`. -/
def SmallFds (openFile : Opens U Opened) : Prop :=
  ∀ files u name file, openFile files u name = some file → file.fd < FD_SETSIZE

theorem setOk_small (h : ∀ e ∈ s.buf_stack, e.fd < FD_SETSIZE) : setOk s = true := by
  rw [setOk]
  cases hstack : s.buf_stack with
  | nil => rfl
  | cons e stack => exact decide_eq_true (h e (by simp [hstack]))

theorem consoleStep_small (hfds : SmallFds openFile) (h : ∀ e ∈ s.buf_stack, e.fd < FD_SETSIZE)
    (hstep : consoleStep env openFile s = .ok s') : ∀ e ∈ s'.buf_stack, e.fd < FD_SETSIZE := by
  refine readAndInterpret_stack (fun files u name e hopen => ?_) (fun e e' hread he => ?_) h hstep
  · obtain ⟨file, hfile, rfl⟩ := Option.map_eq_some_iff.mp hopen
    exact hfds files u name file hfile
  · exact (readLoop_fd hread).symm ▸ he

/-- What the lines come to, the code comes to. -/
theorem consoleLoop_of_lines (hfds : SmallFds openFile) : ∀ {k : ℕ} {s t : Console ι U RioEle},
    (∀ e ∈ s.buf_stack, e.fd < FD_SETSIZE) →
    lineLoop env (rioOpen openFile) RioEle.readline k s = .ok t → Quiet t →
    ∃ j t', consoleLoop env openFile j s = .ok t' ∧ t'.globals = t.globals
  | 0, _, _, _, hrun, _ => by cases hrun
  | k + 1, s, t, hsmall, hrun, hquiet => by
      rw [lineLoop] at hrun
      split at hrun
      · rename_i hdone
        cases hrun
        exact ⟨1, s, consoleLoop_done hdone, rfl⟩
      · rename_i hdone
        obtain ⟨s₁, hstep, hrest⟩ := bind_ok hrun
        obtain ⟨j, t₁, hcode, hglobals⟩ :=
          consoleLoop_of_lines hfds (consoleStep_small hfds hsmall hstep) hrest hquiet
        have hlast : cmd_done s₁ = true → Quiet s₁ := fun hdone₁ => by
          cases k with
          | zero => cases hrest
          | succ k =>
            rw [lineLoop, if_pos hdone₁] at hrest
            cases hrest
            exact hquiet
        obtain ⟨j', t', hcode', hglobals'⟩ := consoleLoop_step hdone (setOk_small hsmall) hstep hlast hcode
        exact ⟨j', t', hcode', hglobals'.trans hglobals⟩

/-- The loop over the buffer makes some of the steps, and echoes if it has come to the end. -/
theorem lines_of_drain : ∀ {k : ℕ} {s u : Console ι U RioEle}, drain env openFile k s = .ok u →
    (∃ j t, lineLoop env (rioOpen openFile) RioEle.readline j s = .ok t ∧ cmd_done t = true ∧
      Echoed t u) ∨
    (¬ cmd_done u = true ∧ ∀ j t, lineLoop env (rioOpen openFile) RioEle.readline j u = .ok t →
      ∃ j', lineLoop env (rioOpen openFile) RioEle.readline j' s = .ok t)
  | 0, _, _, hrun => by cases hrun
  | k + 1, s, u, hrun => by
      by_cases hdone : cmd_done s = true
      · exact Or.inl ⟨1, s, by rw [lineLoop, if_pos hdone], hdone, drain_done hdone hrun⟩
      · rw [drain] at hrun
        split at hrun
        · obtain ⟨s₁, hstep, hrest⟩ := bind_ok hrun
          have hmore : ∀ j t, lineLoop env (rioOpen openFile) RioEle.readline j s₁ = .ok t →
              lineLoop env (rioOpen openFile) RioEle.readline (j + 1) s = .ok t := fun j t h => by
            rw [lineLoop, if_neg hdone, hstep, ok_bind]
            exact h
          rcases lines_of_drain hrest with ⟨j, t, hlines, hend⟩ | ⟨hgoing, hlines⟩
          · exact Or.inl ⟨j + 1, t, hmore j t hlines, hend⟩
          · refine Or.inr ⟨hgoing, fun j t h => ?_⟩
            obtain ⟨j', hj'⟩ := hlines j t h
            exact ⟨j' + 1, hmore j' t hj'⟩
        · cases hrun
          exact Or.inr ⟨hdone, fun j t h => ⟨j, h⟩⟩

/-- What the code comes to, the lines come to, but for what is echoed at the end. -/
theorem lines_of_consoleLoop : ∀ {k : ℕ} {s t : Console ι U RioEle},
    consoleLoop env openFile k s = .ok t →
    ∃ j t', lineLoop env (rioOpen openFile) RioEle.readline j s = .ok t' ∧ Echoed t' t
  | 0, _, _, hrun => by cases hrun
  | k + 1, s, t, hrun => by
      rw [consoleLoop] at hrun
      split at hrun
      · rename_i hdone
        cases hrun
        exact ⟨1, s, by rw [lineLoop, if_pos hdone], Echoed.refl s⟩
      · obtain ⟨v, hselect, hrest⟩ := bind_ok hrun
        obtain ⟨u, hdrain, hstep⟩ := bind_ok hselect
        rcases lines_of_drain hdrain with ⟨j, t', hlines, hend, hechoed⟩ | ⟨hgoing, hlines⟩
        · have hdone : cmd_done u = true := hechoed.done.trans hend
          rw [if_pos hdone] at hstep
          cases hstep
          cases k with
          | zero => cases hrest
          | succ k =>
            rw [consoleLoop_done hdone] at hrest
            cases hrest
            exact ⟨j, t', hlines, hechoed⟩
        · rw [if_neg hgoing] at hstep
          obtain ⟨j, t', hlines', hechoed⟩ := lines_of_consoleLoop hrest
          split at hstep
          · cases hstep
          obtain ⟨j', hj'⟩ := hlines (j + 1) t' (by
            rw [lineLoop, if_neg hgoing, hstep, ok_bind]
            exact hlines')
          exact ⟨j', t', hj', hechoed⟩

end Code

/-! ### The texts of the files -/

def Opened.text (file : Opened) : Bytes := (RioEle.mk file []).text

/-- The console over the texts of the files, from the first file on. -/
def run_script (env : Env ι U) (files : Opens U Bytes) (fuel : ℕ) (text : Bytes)
    (g : Globals ι U) : Except Stop (Console ι U Bytes) :=
  lineLoop env files nextLine fuel ⟨[text], g⟩

section Script
variable {openFile openFile' : Opens U Opened} {file file' : Opened}
  {name : Bytes} {g : Globals ι U} {ok : Bool} {t : Console ι U RioEle} {k : ℕ}

theorem run_script_map (env : Env ι U) (openFile : Opens U Opened) (k : ℕ) (file : Opened)
    (g : Globals ι U) : run_script env (mapFiles Opened.text openFile) k file.text g =
      (lineLoop env (rioOpen openFile) RioEle.readline k ⟨[⟨file, []⟩], g⟩).map
        (Console.map RioEle.text) := by
  have hfiles : mapFiles Opened.text openFile = mapFiles RioEle.text (rioOpen openFile) := by
    funext files u name
    rw [mapFiles, mapFiles, rioOpen, Option.map_map]
    rfl
  rw [run_script, hfiles]
  exact lineLoop_map readline_text k ⟨[⟨file, []⟩], g⟩

theorem run_console_ok (hrun : run_console env openFile k name (some file) ⟨[], g⟩ = .ok (ok, t)) :
    consoleLoop env openFile k ⟨[⟨file, []⟩], g⟩ = .ok t ∧ ok = decide (t.globals.err_cnt = 0) := by
  obtain ⟨t', hloop, hend⟩ := bind_ok hrun
  cases hend
  exact ⟨hloop, rfl⟩

theorem run_console_more (hrun : run_console env openFile k name (some file) ⟨[], g⟩ = .ok (ok, t)) :
    run_console env openFile (k + 1) name (some file) ⟨[], g⟩ = .ok (ok, t) := by
  obtain ⟨hloop, hok⟩ := run_console_ok hrun
  have hpush : (⟨[], g⟩ : Console ι U RioEle).push_file ⟨file, []⟩ = ⟨[⟨file, []⟩], g⟩ := rfl
  simp only [run_console, hpush]
  rw [consoleLoop_more hloop, ok_bind, hok]

theorem console_of_script {t : Console ι U Bytes} (hfds : SmallFds openFile)
    (hfd : file.fd < FD_SETSIZE)
    (hrun : run_script env (mapFiles Opened.text openFile) k file.text g = .ok t)
    (hquiet : Quiet t) :
    ∃ t' : Console ι U RioEle, t'.globals = t.globals ∧
      Converges (fun k => run_console env openFile k name (some file) ⟨[], g⟩)
        (decide (t.globals.err_cnt = 0), t') := by
  rw [run_script_map] at hrun
  obtain ⟨s, hlines, hs⟩ : ∃ s, lineLoop env (rioOpen openFile) RioEle.readline k
      ⟨[⟨file, []⟩], g⟩ = .ok s ∧ s.map RioEle.text = t := by
    cases hlines : lineLoop env (rioOpen openFile) RioEle.readline k ⟨[⟨file, []⟩], g⟩ with
    | error e =>
      rw [hlines] at hrun
      cases hrun
    | ok s =>
      rw [hlines] at hrun
      exact ⟨s, rfl, Except.ok.inj hrun⟩
  have hglobals : s.globals = t.globals := by rw [← hs]; rfl
  have hquiet' : Quiet s := fun hquit hne => by
    rw [hglobals]
    exact hquiet (by rw [← hglobals]; exact hquit) (by rw [← hs]; simpa [Console.map] using hne)
  have hsmall : ∀ e ∈ [RioEle.mk file []], e.fd < FD_SETSIZE := List.forall_mem_singleton.mpr hfd
  obtain ⟨j, t', hcode, hsame⟩ := consoleLoop_of_lines hfds hsmall hlines hquiet'
  rw [← hglobals, ← hsame]
  refine ⟨t', rfl, Converges.of_ok (fun _ h => run_console_more h) (k := j) ?_⟩
  have hpush : (⟨[], g⟩ : Console ι U RioEle).push_file ⟨file, []⟩ = ⟨[⟨file, []⟩], g⟩ := rfl
  simp only [run_console, hpush]
  rw [hcode]
  rfl

theorem script_of_console
    (hrun : run_console env openFile k name (some file) ⟨[], g⟩ = .ok (ok, t)) :
    ∃ t' : Console ι U Bytes, Echoed t' t ∧ ok = decide (t'.globals.err_cnt = 0) ∧
      Converges (fun k => run_script env (mapFiles Opened.text openFile) k file.text g) t' := by
  obtain ⟨hloop, hok⟩ := run_console_ok hrun
  obtain ⟨j, s, hlines, hechoed⟩ := lines_of_consoleLoop hloop
  have herr : t.globals.err_cnt = s.globals.err_cnt := by
    obtain ⟨text, hg, _⟩ := hechoed
    rw [hg]
  have htext : Echoed (s.map RioEle.text) t := by
    obtain ⟨text, hg, hstack, hne⟩ := hechoed
    refine ⟨text, hg, ?_, fun h => ?_⟩
    · simpa [Console.map] using hstack
    · simpa [Console.map] using hne h
  have hmore : ∀ k, run_script env (mapFiles Opened.text openFile) k file.text g =
      .ok (s.map RioEle.text) →
      run_script env (mapFiles Opened.text openFile) (k + 1) file.text g =
        .ok (s.map RioEle.text) := fun _ h => lineLoop_more h
  refine ⟨s.map RioEle.text, htext, by rw [hok, herr]; rfl, Converges.of_ok hmore (k := j) ?_⟩
  rw [run_script_map, hlines]
  rfl

/-- `run_console` is a run over the texts of the files: what the texts come to, the code comes to,
    whatever pieces they are read in, unless lines are echoed after too many errors; and where the code
    comes to an end, so do the texts, and nothing is different but for lines echoed then. -/
theorem console_runs_script (env : Env ι U) (openFile : Opens U Opened) (name : Bytes) (file : Opened)
    (g : Globals ι U) (hfds : SmallFds openFile) (hfd : file.fd < FD_SETSIZE) :
    (∀ t : Console ι U Bytes,
      Converges (fun k => run_script env (mapFiles Opened.text openFile) k file.text g) t →
      Quiet t → ∃ t' : Console ι U RioEle, t'.globals = t.globals ∧
        Converges (fun k => run_console env openFile k name (some file) ⟨[], g⟩)
          (decide (t.globals.err_cnt = 0), t')) ∧
    (∀ (ok : Bool) (t' : Console ι U RioEle),
      Converges (fun k => run_console env openFile k name (some file) ⟨[], g⟩) (ok, t') →
      ∃ t : Console ι U Bytes, Echoed t t' ∧ ok = decide (t.globals.err_cnt = 0) ∧
        Converges (fun k => run_script env (mapFiles Opened.text openFile) k file.text g) t) := by
  refine ⟨fun t h hquiet => ?_, fun ok t' h => ?_⟩
  · obtain ⟨k, _, hrun⟩ := h.above 0
    exact console_of_script hfds hfd hrun hquiet
  · obtain ⟨k, _, hrun⟩ := h.above 0
    exact script_of_console hrun

end Script

/-- A program that adds nothing to the console. -/
def bare : Env Empty Unit where
  operation := fun i => i.elim
  value := fun i => i.elim
  assign := fun i => i.elim
  setter := fun i => i.elim
  set_logfile := fun _ _ u => (false, u)
  block := fun _ n => ⟨List.replicate n 0, List.length_replicate⟩

/-- No file but the first one. -/
def noFile : Opens Unit Opened := fun _ _ _ => none

theorem noFile_small : SmallFds noFile := fun _ _ _ _ h => by cases h

/-- A file in two pieces, with `quit` and a new line. -/
theorem console_runs_script_quit :
    (∀ t : Console Empty Unit Bytes,
      Converges (fun k => run_script bare (mapFiles Opened.text noFile) k (str "quit\n") (init_cmd ())) t →
      Quiet t → ∃ t' : Console Empty Unit RioEle, t'.globals = t.globals ∧
        Converges (fun k => run_console bare noFile k []
          (some ⟨3, [⟨113, [117]⟩, ⟨105, [116, 10]⟩]⟩) ⟨[], init_cmd ()⟩)
          (decide (t.globals.err_cnt = 0), t')) ∧
    (∀ (ok : Bool) (t' : Console Empty Unit RioEle),
      Converges (fun k => run_console bare noFile k []
        (some ⟨3, [⟨113, [117]⟩, ⟨105, [116, 10]⟩]⟩) ⟨[], init_cmd ()⟩) (ok, t') →
      ∃ t : Console Empty Unit Bytes, Echoed t t' ∧ ok = decide (t.globals.err_cnt = 0) ∧
        Converges (fun k => run_script bare (mapFiles Opened.text noFile) k (str "quit\n")
          (init_cmd ())) t) :=
  console_runs_script bare noFile [] ⟨3, [⟨113, [117]⟩, ⟨105, [116, 10]⟩]⟩ (init_cmd ()) noFile_small
    (by decide)

end Labs.Cmdline
