import SystemsLabs.Cprogramming.Console
import SystemsLabs.Schemes.Outcome

/-! @lab cprogramminglab | file:console.c (interpret_cmda, record_error) | structure:what a command does |
    main result:a command fails exactly if the count of errors grows

    A command leaves the lists of commands and parameters in use, unless it is `quit`; then nothing is
    interpreted any more. It opens one file at most. It comes to its end as long as the lists are in
    use and the log file has not been closed by an event. -/

namespace Labs.Cmdline
open Schemes
variable {ι U σ : Type} {env : Env ι U} {opens : Opens U σ} {g g' : Globals ι U}
  {s s' : Console ι U σ} {b : Bool}

/-- The functions of the program leave no closed log file behind: while there is one they show no
    event. -/
structure Env.KeepsLog (env : Env ι U) : Prop where
  operation : ∀ i argv files x, x.logfile ≠ .closed → (env.operation i argv files x).2.logfile ≠ .closed
  setter : ∀ i v files x, x.logfile ≠ .closed → (env.setter i v files x).logfile ≠ .closed

/-- Reports can be made, and it stays like that. -/
structure Reports (env : Env ι U) (g : Globals ι U) : Prop where
  keeps : env.KeepsLog
  log : g.logfile ≠ .closed

/-- The lists have not been freed. -/
def Live (g : Globals ι U) : Prop := g.cmd_list ≠ none ∧ g.param_list ≠ none

theorem commands_meets (g : Globals ι U) : Meets g.commands (Live g) fun _ => True := by
  rw [Globals.commands]
  cases hcmds : g.cmd_list with
  | some cmds => exact .ok trivial
  | none => exact ⟨fun _ _ => trivial, fun hlive => absurd hcmds hlive.1⟩

theorem params_meets (g : Globals ι U) : Meets g.params (Live g) fun _ => True := by
  rw [Globals.params]
  cases hparams : g.param_list with
  | some params => exact .ok trivial
  | none => exact ⟨fun _ _ => trivial, fun hlive => absurd hparams hlive.2⟩

/-! ### What commands keep -/

/-- Neither a list nor the count of errors nor the prompt has changed, and not the flag. -/
structure Keeps (env : Env ι U) (g g' : Globals ι U) : Prop where
  cmds : g'.cmd_list = g.cmd_list
  params : g'.param_list = g.param_list
  err_cnt : g'.err_cnt = g.err_cnt
  prompt : g'.prompt = g.prompt
  quit : g'.quit_flag = g.quit_flag
  reports : Reports env g → Reports env g'

theorem Keeps.refl (g : Globals ι U) : Keeps env g g := ⟨rfl, rfl, rfl, rfl, rfl, id⟩

theorem Keeps.trans {g'' : Globals ι U} (h : Keeps env g g') (h' : Keeps env g' g'') :
    Keeps env g g'' :=
  ⟨h'.cmds.trans h.cmds, h'.params.trans h.params, h'.err_cnt.trans h.err_cnt,
    h'.prompt.trans h.prompt, h'.quit.trans h.quit, h'.reports ∘ h.reports⟩

theorem Keeps.live (h : Keeps env g g') (hlive : Live g) : Live g' := by
  rw [Live, h.cmds, h.params]
  exact hlive

/-- `g` is where the command began, `g'` what it has come to. -/
theorem Keeps.report_noreturn (h : Keeps env g g') (level : ℤ) (text : Bytes) :
    Meets (g'.report_noreturn level text) (Reports env g) (Keeps env g) := by
  rw [Globals.report_noreturn]
  split
  · split
    · rename_i hclosed
      exact ⟨fun _ heq => (by cases heq), fun hsafe => absurd hclosed (h.reports hsafe).log⟩
    · exact .ok (h.trans ⟨rfl, rfl, rfl, rfl, rfl, fun hr => ⟨hr.keeps, hr.log⟩⟩)
  · exact .ok h

theorem Keeps.report (h : Keeps env g g') (level : ℤ) (text : Bytes) :
    Meets (g'.report level text) (Reports env g) (Keeps env g) := h.report_noreturn level _

theorem Keeps.refuse (h : Keeps env g g') (text : Bytes) :
    Meets (g'.refuse text) (Reports env g) fun r => Keeps env g r.2 :=
  (h.report 1 text).bind fun _ hg => .ok hg

theorem Keeps.listParams (h : Keeps env g g') (params : List (ParamEle ι)) :
    Meets (g'.listParams env params) (Reports env g) (Keeps env g) :=
  (h.report 1 _).bind fun _ hg => Meets.foldlM (fun _ _ hg => hg.report 1 _) params hg

theorem Keeps.assign (h : Keeps env g g') (v : ℤ) (loc : ParamLoc ι) :
    Keeps env g (g'.assign env v loc) := by
  refine h.trans ?_
  cases loc <;> exact ⟨rfl, rfl, rfl, rfl, rfl, fun hr => ⟨hr.keeps, hr.log⟩⟩

theorem Keeps.optionLoop (files : ℕ) (params : List (ParamEle ι)) :
    ∀ (args : List Bytes) {g' : Globals ι U}, Keeps env g g' →
      Meets (g'.optionLoop env files params args) (Reports env g) fun r => Keeps env g r.2
  | [], _, h => .ok h
  | [name], _, h => h.refuse _
  | name :: text :: args, g', h => by
      rw [Globals.optionLoop]
      cases get_int text with
      | none => exact h.refuse _
      | some v =>
        cases params.find? (·.name = name) with
        | none => exact h.refuse _
        | some p =>
          refine Keeps.optionLoop files params args ?_
          cases p.setter with
          | none => exact h.assign v p.valp
          | some i =>
            exact (h.assign v p.valp).trans ⟨rfl, rfl, rfl, rfl, rfl,
              fun hr => ⟨hr.keeps, hr.keeps.setter i _ files _ hr.log⟩⟩

/-- A command can be carried out. -/
def Ready (env : Env ι U) (g : Globals ι U) : Prop := Live g ∧ Reports env g

section Builtin
variable (env) (g)

theorem do_help_cmd_meets : Meets (g.do_help_cmd env) (Ready env g) fun r => Keeps env g r.2 := by
  refine ((commands_meets g).imp And.left fun _ => id).bind fun cmds _ => ?_
  refine (((Keeps.refl g).report 1 _).imp And.right fun _ => id).bind fun g₁ h₁ => ?_
  refine ((Meets.foldlM (fun _ _ hg => hg.report 1 _) cmds h₁).imp And.right fun _ => id).bind
    fun g₂ h₂ => ?_
  refine ((params_meets g₂).imp (fun hr => h₂.live hr.1) fun _ => id).bind fun params _ => ?_
  exact ((h₂.listParams params).imp And.right fun _ => id).bind fun _ hg => .ok hg

theorem do_option_cmd_meets (files : ℕ) (argv : List Bytes) :
    Meets (g.do_option_cmd env files argv) (Ready env g) fun r => Keeps env g r.2 := by
  refine ((params_meets g).imp And.left fun _ => id).bind fun params _ => ?_
  refine Meets.imp ?_ And.right fun _ => id
  split
  · exact ((Keeps.refl g).listParams params).bind fun _ hg => .ok hg
  · exact Keeps.optionLoop files params argv.tail (Keeps.refl g)

theorem do_comment_cmd_meets (argv : List Bytes) :
    Meets (g.do_comment_cmd argv) (Reports env g) fun r => Keeps env g r.2 := by
  rw [Globals.do_comment_cmd]
  split
  · exact .ok (Keeps.refl g)
  · refine (Meets.foldlM (fun _ _ hg => hg.report_noreturn 1 _) argv.dropLast
      (Keeps.refl g)).bind fun g₁ h₁ => ?_
    cases argv.getLast? with
    | none => exact .ok h₁
    | some arg => exact (h₁.report 1 arg).bind fun _ hg => .ok hg

theorem do_log_cmd_meets (files : ℕ) (argv : List Bytes) :
    Meets (g.do_log_cmd env files argv) (Reports env g) fun r => Keeps env g r.2 := by
  rw [Globals.do_log_cmd]
  cases argv[1]? with
  | none => exact (Keeps.refl g).refuse _
  | some name =>
    simp only
    split
    · exact .ok ⟨rfl, rfl, rfl, rfl, rfl, fun hr => ⟨hr.keeps, by simp⟩⟩
    · refine Keeps.refuse ?_ _
      exact ⟨rfl, rfl, rfl, rfl, rfl, fun hr => ⟨hr.keeps, by simp⟩⟩

end Builtin

theorem callHelpers_log (henv : env.KeepsLog) (argv : List Bytes) : ∀ (is : List ι) {x : Shared U},
    x.logfile ≠ .closed → (Globals.callHelpers env argv is x).2.logfile ≠ .closed
  | [], _, hx => hx
  | i :: is, x, hx => by
      have hnext := henv.operation i argv 0 x hx
      rw [Globals.callHelpers]
      simp only
      split
      · exact callHelpers_log henv argv is hnext
      · exact hnext

/-- The console has quit, and the lists are gone. -/
structure Quits (env : Env ι U) (g g' : Globals ι U) : Prop where
  err_cnt : g'.err_cnt = g.err_cnt
  prompt : g'.prompt = g.prompt
  quit : g'.quit_flag = true
  reports : Reports env g → Reports env g'

theorem do_quit_cmd_meets (env : Env ι U) (g : Globals ι U) (argv : List Bytes) :
    Meets (g.do_quit_cmd env argv) (Ready env g) fun r => Quits env g r.2 := by
  refine ((commands_meets g).imp And.left fun _ => id).bind fun _ _ => ?_
  refine ((params_meets g).imp And.left fun _ => id).bind fun _ _ => .ok ⟨rfl, rfl, rfl, fun hr => ?_⟩
  exact ⟨hr.keeps, callHelpers_log hr.keeps argv g.quit_helpers hr.log⟩

/-- What a command other than `time` can do: open a file, quit and close all files, or neither. -/
def Performs (env : Env ι U) (opens : Opens U σ) (s s' : Console ι U σ) : Prop :=
  (Keeps env s.globals s'.globals ∧ (s'.buf_stack = s.buf_stack ∨
    ∃ files u name e, opens files u name = some e ∧ s'.buf_stack = e :: s.buf_stack)) ∨
  (Quits env s.globals s'.globals ∧ s'.buf_stack = [])

theorem Console.report_meets (s : Console ι U σ) (level : ℤ) (text : Bytes) :
    Meets (s.report level text) (Reports env s.globals) (Performs env opens s) :=
  ((Keeps.refl s.globals).report level text).bind fun _ hg => .ok (Or.inl ⟨hg, Or.inl rfl⟩)

theorem do_source_cmd_meets (s : Console ι U σ) (argv : List Bytes) :
    Meets (s.do_source_cmd opens argv) (Reports env s.globals) fun r => Performs env opens s r.2 := by
  rw [Console.do_source_cmd]
  cases argv[1]? with
  | none => exact (s.report_meets 1 _).bind fun _ hs => .ok hs
  | some name =>
    simp only
    cases hfile : opens s.buf_stack.length s.globals.user name with
    | none => exact (s.report_meets 1 _).bind fun _ hs => .ok hs
    | some e => exact .ok (Or.inl ⟨Keeps.refl _, Or.inr ⟨_, _, name, e, hfile, rfl⟩⟩)

theorem perform_meets (s : Console ι U σ) (argv : List Bytes) (op : Op ι) :
    Meets (s.perform env opens argv op) (Ready env s.globals) fun r => Performs env opens s r.2 := by
  have hkept : ∀ {r : Bool × Globals ι U}, Keeps env s.globals r.2 →
      Performs env opens s (s.setGlobals r).2 := fun hg => Or.inl ⟨hg, Or.inl rfl⟩
  cases op with
  | help => exact (do_help_cmd_meets env s.globals).map fun _ => hkept
  | option => exact (do_option_cmd_meets env s.globals _ argv).map fun _ => hkept
  | quit => exact (do_quit_cmd_meets env s.globals argv).map fun _ hg => Or.inr ⟨hg, rfl⟩
  | source => exact (do_source_cmd_meets s argv).imp And.right fun _ => id
  | log => exact ((do_log_cmd_meets env s.globals _ argv).imp And.right fun _ => id).map fun _ => hkept
  | comment => exact ((do_comment_cmd_meets env s.globals argv).imp And.right fun _ => id).map fun _ => hkept
  | time => exact .ok (Or.inl ⟨Keeps.refl _, Or.inl rfl⟩)
  | user i =>
    refine .ok (Or.inl ⟨⟨rfl, rfl, rfl, rfl, rfl, fun hr => ⟨hr.keeps, ?_⟩⟩, Or.inl rfl⟩)
    exact hr.keeps.operation i argv _ s.globals.toShared hr.log

/-! ### One command -/

/-- What has become of the console: the lists are in use until it has quit, and every file on the
    stack is an old or a new one. -/
structure Carries (env : Env ι U) (opens : Opens U σ) (s s' : Console ι U σ) : Prop where
  live : Live s.globals → ¬ s'.globals.quit_flag = true → Live s'.globals
  reports : Reports env s.globals → Reports env s'.globals
  prompt : s'.globals.prompt = s.globals.prompt
  stack : ∀ e ∈ s'.buf_stack, e ∈ s.buf_stack ∨ ∃ files u name, opens files u name = some e

theorem Carries.refl (s : Console ι U σ) : Carries env opens s s :=
  ⟨fun hlive _ => hlive, id, rfl, fun _ he => Or.inl he⟩

/-- A command fails exactly if the count of errors has grown, and then the limit is looked at. -/
structure Counted (s : Console ι U σ) (b : Bool) (s' : Console ι U σ) : Prop where
  fine : b = true → s'.globals.err_cnt = s.globals.err_cnt
  failed : b = false → s.globals.err_cnt < s'.globals.err_cnt
  limit : b = false → s'.globals.quit_flag = true ∨ (s'.globals.err_cnt : ℤ) < s'.globals.err_limit

def Done (env : Env ι U) (opens : Opens U σ) (s : Console ι U σ) (r : Bool × Console ι U σ) : Prop :=
  Carries env opens s r.2 ∧ Counted s r.1 r.2

theorem Performs.carries (h : Performs env opens s s') :
    Carries env opens s s' ∧ s'.globals.err_cnt = s.globals.err_cnt := by
  rcases h with ⟨hkeep, hstack⟩ | ⟨hquits, hstack⟩
  · refine ⟨⟨fun hlive _ => hkeep.live hlive, hkeep.reports, hkeep.prompt, fun e he => ?_⟩, hkeep.err_cnt⟩
    rcases hstack with hstack | ⟨files, u, name, e', hopen, hstack⟩
    · exact Or.inl (hstack ▸ he)
    · rw [hstack, List.mem_cons] at he
      rcases he with rfl | he
      · exact Or.inr ⟨files, u, name, hopen⟩
      · exact Or.inl he
  · refine ⟨⟨fun _ hgoing => absurd hquits.quit hgoing, hquits.reports, hquits.prompt, fun e he => ?_⟩,
      hquits.err_cnt⟩
    rw [hstack] at he
    exact absurd he List.not_mem_nil

/-- The errors after `record_error`. -/
structure Recorded (env : Env ι U) (g g' : Globals ι U) : Prop where
  err_cnt : g'.err_cnt = g.err_cnt + 1
  cmds : g'.cmd_list = g.cmd_list
  params : g'.param_list = g.param_list
  prompt : g'.prompt = g.prompt
  quit : g.quit_flag = true → g'.quit_flag = true
  limit : g'.quit_flag = true ∨ (g'.err_cnt : ℤ) < g'.err_limit
  reports : Reports env g → Reports env g'

theorem record_error_meets (g : Globals ι U) :
    Meets g.record_error (Reports env g) (Recorded env g) := by
  rw [Globals.record_error]
  simp only
  split
  · have hkeep : Keeps env { g with err_cnt := g.err_cnt + 1 } _ := Keeps.refl _
    have htell := hkeep.report 1 (str "Error limit exceeded.  Stopping command execution")
    refine (htell.imp (fun hr => ⟨hr.keeps, hr.log⟩) fun _ => id).bind fun g' hg => .ok ?_
    refine ⟨hg.err_cnt, hg.cmds, hg.params, hg.prompt, fun _ => rfl, Or.inl rfl, fun hr => ?_⟩
    have hr' := hg.reports ⟨hr.keeps, hr.log⟩
    exact ⟨hr'.keeps, hr'.log⟩
  · rename_i hbelow
    exact .ok ⟨rfl, rfl, rfl, rfl, id, Or.inr (not_le.mp hbelow), fun hr => ⟨hr.keeps, hr.log⟩⟩

/-- A command, before its failure is recorded. -/
structure Worked (env : Env ι U) (opens : Opens U σ) (s : Console ι U σ)
    (r : Bool × Console ι U σ) : Prop where
  carries : Carries env opens s r.2
  fine : r.1 = true → r.2.globals.err_cnt = s.globals.err_cnt
  failed : r.1 = false → s.globals.err_cnt ≤ r.2.globals.err_cnt

theorem Performs.worked {r : Bool × Console ι U σ} (h : Performs env opens s r.2) :
    Worked env opens s r := ⟨h.carries.1, fun _ => h.carries.2, fun _ => h.carries.2.ge⟩

theorem Worked.recordUnless {r : Bool × Console ι U σ} (h : Worked env opens s r) :
    Meets (r.2.recordUnless r.1 >>= fun s' => .ok (r.1, s')) (Reports env s.globals)
      (Done env opens s) := by
  obtain ⟨b, s'⟩ := r
  obtain ⟨h, hfine, hfailed⟩ := h
  cases b with
  | true => exact .ok ⟨h, hfine, fun hb => (by cases hb), fun hb => (by cases hb)⟩
  | false =>
    have hrecord : Meets s'.globals.record_error (Reports env s.globals) (Recorded env s'.globals) :=
      (record_error_meets s'.globals).imp h.reports fun _ => id
    refine (hrecord.bind (Q := fun s'' : Console ι U σ => Done env opens s (false, s''))
      fun g hg => .ok ?_).bind fun _ hs => .ok hs
    refine ⟨⟨fun hlive hgoing => ?_, hg.reports ∘ h.reports, hg.prompt.trans h.prompt, h.stack⟩,
      fun hb => (by cases hb), fun _ => ?_, fun _ => hg.limit⟩
    · have hlive' := h.live hlive fun hq => hgoing (hg.quit hq)
      rw [Live, ← hg.cmds, ← hg.params] at hlive'
      exact hlive'
    · exact hg.err_cnt ▸ Nat.lt_succ_of_le (hfailed rfl)

theorem Done.tellTime {r : Bool × Console ι U σ} (h : Done env opens s r) :
    Meets (tellTime r) (Reports env s.globals) (Worked env opens s) := by
  obtain ⟨hcarries, hcounted⟩ := h
  have hkeep : Keeps env r.2.globals r.2.globals := Keeps.refl _
  have htell := hkeep.report_noreturn 1 []
  refine (htell.imp hcarries.reports fun _ => id).bind fun g hg => .ok ⟨?_, fun hb => ?_, fun hb => ?_⟩
  · refine ⟨fun hlive hgoing => ?_, hg.reports ∘ hcarries.reports, hg.prompt.trans hcarries.prompt,
      hcarries.stack⟩
    exact hg.live (hcarries.live hlive (hg.quit ▸ hgoing))
  · exact hg.err_cnt.trans (hcounted.fine hb)
  · exact hg.err_cnt ▸ (hcounted.failed hb).le

/-- A command does as it must, and it comes to its end if it can be carried out. -/
theorem interpret_cmda_meets : ∀ (argv : List Bytes) (s : Console ι U σ),
    Meets (interpret_cmda env opens argv s) (Ready env s.globals) (Done env opens s)
  | [], s => .ok ⟨Carries.refl s, fun _ => rfl,
      fun hb => (by cases hb), fun hb => (by cases hb)⟩
  | name :: args, s => by
      rw [interpret_cmda]
      refine ((commands_meets s.globals).imp And.left fun _ => id).bind fun cmds _ => ?_
      have hafter : ∀ {r : Except Stop (Bool × Console ι U σ)},
          Meets r (Ready env s.globals) (Worked env opens s) →
          Meets (r >>= fun r => r.2.recordUnless r.1 >>= fun s' => .ok (r.1, s'))
            (Ready env s.globals) (Done env opens s) := fun hr =>
        hr.bind fun _ hw => hw.recordUnless.imp And.right fun _ => id
      have hother : ∀ op, Meets (s.perform env opens (name :: args) op) (Ready env s.globals)
          (Worked env opens s) := fun op =>
        (perform_meets s (name :: args) op).imp id fun _ => Performs.worked
      cases cmds.find? (·.name = name) with
      | none =>
        have htell : Meets (s.report 1 (str "Unknown command '" ++ name ++ str "'"))
            (Reports env s.globals) (Performs env opens s) := s.report_meets 1 _
        refine (htell.imp And.right fun _ => id).bind fun s₁ hs => ?_
        exact (Performs.worked (r := (false, s₁)) hs).recordUnless.imp And.right fun _ => id
      | some cmd =>
        cases hop : cmd.operation with
        | time =>
          simp only [hop]
          exact hafter ((interpret_cmda_meets args s).bind fun _ hr =>
            hr.tellTime.imp And.right fun _ => id)
        | _ =>
          simp only [hop]
          exact hafter (hother _)

/-- A line does nothing once the console has quit. -/
theorem interpret_cmd_meets (cmdline : Bytes) (s : Console ι U σ) :
    Meets (interpret_cmd env opens cmdline s)
      (¬ s.globals.quit_flag = true → Ready env s.globals ∧
        ∃ argv, parse_args (cstr cmdline) (env.block s.globals.user _) = .ok argv)
      fun r => Carries env opens s r.2 ∧ (s.globals.quit_flag = true → r.2 = s) ∧
        (¬ s.globals.quit_flag = true → Counted s r.1 r.2) := by
  rw [interpret_cmd]
  split
  · rename_i hquit
    exact .ok ⟨Carries.refl s, fun _ => rfl, fun hgoing => absurd hquit hgoing⟩
  · rename_i hgoing
    have hparse : Meets (parse_args (cstr cmdline) (env.block s.globals.user _))
        (Ready env s.globals ∧ ∃ argv,
          parse_args (cstr cmdline) (env.block s.globals.user _) = .ok argv) fun _ => True :=
      ⟨fun _ _ => trivial, And.right⟩
    refine (hparse.bind fun argv _ => ?_).imp (fun hsafe => hsafe hgoing) fun _ => id
    exact (interpret_cmda_meets argv s).imp And.left fun r hr =>
      ⟨hr.1, fun hquit => absurd hquit hgoing, fun _ => hr.2⟩

end Labs.Cmdline
