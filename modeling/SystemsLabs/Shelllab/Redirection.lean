import SystemsLabs.Schemes.Descriptors
import SystemsLabs.Schemes.Text
import SystemsLabs.Shelllab.JobList

/-! @lab shelllab | file:tsh.c (redirection) | structure:descriptors of a child | scheme:descriptors |
    main result:redirection_exact

    The child redirects its output first, then its input. A disk says which file a name stands for,
    and two names may stand for one file; it says what a file holds, which `open` it refuses and whether
    a `close` reports an error. The files are regular ones. The messages of the child go to its standard
    output, which may be the output file by then; what `perror` writes is left out. A description that
    was opened for writing appends, since the file was empty at first. -/

namespace Labs.Shell.Redirect
open Schemes

inductive Errno where
  | ENOENT
  | EACCES
  | other
  deriving DecidableEq, Repr

/-- What a descriptor refers to: something from the parent, or a file opened since. -/
inductive Descr where
  | inherited (k : ℕ)
  | reading (file : ℕ)
  | writing (file : ℕ)
  deriving DecidableEq, Repr

/-- `file` is the file that a name stands for, or would if it existed. `refusal` is about opening a
    name for writing or else reading; a missing file is apart. -/
structure Disk where
  file : Bytes → ℕ
  content : ℕ → Option Bytes
  refusal : Bool → Bytes → Option Errno
  closes : Bool → Bytes → Bool

structure Process where
  fds : Descriptors Descr
  disk : Disk
  sent : ℕ → Bytes

def STDIN_FILENO : ℕ := 0

def STDOUT_FILENO : ℕ := 1

namespace Process

/-- `sio_printf` -/
def sio_printf (p : Process) (text : Bytes) : Process :=
  match p.fds.get STDOUT_FILENO with
  | some (.inherited k) => { p with sent := Function.update p.sent k (p.sent k ++ text) }
  | some (.writing file) =>
    let old := (p.disk.content file).getD []
    { p with disk := { p.disk with
        content := Function.update p.disk.content file (some (old ++ text)) } }
  | _ => p

/-- `open(file, O_WRONLY | O_CREAT | O_TRUNC, DEF_MODE)` -/
def openOut (p : Process) (file : Bytes) : Except Errno Process :=
  match p.disk.refusal true file with
  | some e => .error e
  | none => .ok { p with
      fds := p.fds.install (.writing (p.disk.file file))
      disk := { p.disk with
        content := Function.update p.disk.content (p.disk.file file) (some []) } }

/-- `open(file, O_RDONLY, DEF_MODE)` -/
def openIn (p : Process) (file : Bytes) : Except Errno Process :=
  match p.disk.refusal false file with
  | some e => .error e
  | none => if (p.disk.content (p.disk.file file)).isSome then
      .ok { p with fds := p.fds.install (.reading (p.disk.file file)) }
    else .error .ENOENT

end Process

/-- The message for a file that cannot be opened. -/
def message (file : Bytes) : Errno → Option Bytes
  | .ENOENT => some (file ++ str ": No such file or directory\n")
  | .EACCES => some (file ++ str ": Permission denied\n")
  | .other => none

def complain (e : Errno) (file : Bytes) (p : Process) : Process :=
  match message file e with
  | some text => p.sio_printf text
  | none => p

/-- One redirection; `p'` is what `open` made of `p`. The child goes on (`ok`) or exits. -/
def redirectTo (target : ℕ) (writing : Bool) (file : Bytes) (p : Process)
    (opened : Except Errno Process) : Except Process Process :=
  match opened with
  | .error e => .error (complain e file p)
  | .ok p' =>
    let fd := p.fds.lowest
    let p' := { p' with fds := (p'.fds.dup2 fd target).close fd }
    if p'.disk.closes writing file then .ok p' else .error p'

def redirection (outfile infile : Option Bytes) (p : Process) : Except Process Process := do
  let p ← match outfile with
    | some file => redirectTo STDOUT_FILENO true file p (p.openOut file)
    | none => .ok p
  match infile with
  | some file => redirectTo STDIN_FILENO false file p (p.openIn file)
  | none => .ok p

variable {p p' q : Process} {d : Disk} {t : Descriptors Descr} {file out : Bytes} {e : Errno}
  {outfile infile : Option Bytes} {k : ℕ}

/-! ### One redirection -/

def Disk.created (d : Disk) (file : Bytes) : Disk :=
  { d with content := Function.update d.content (d.file file) (some []) }

def OutOpens (d : Disk) (file : Bytes) : Prop := d.refusal true file = none ∧ d.closes true file = true

/-- Why a file is not opened for reading. -/
def inRefusal (d : Disk) (file : Bytes) : Option Errno :=
  (d.refusal false file).or (if (d.content (d.file file)).isSome then none else some .ENOENT)

def InOpens (d : Disk) (file : Bytes) : Prop := inRefusal d file = none ∧ d.closes false file = true

theorem openIn_eq (p : Process) (file : Bytes) : p.openIn file =
    match inRefusal p.disk file with
    | some e => .error e
    | none => .ok { p with fds := p.fds.install (.reading (p.disk.file file)) } := by
  rw [Process.openIn, inRefusal]
  cases p.disk.refusal false file with
  | some e => rfl
  | none =>
    by_cases h : (p.disk.content (p.disk.file file)).isSome
    · simp [h]
    · simp [h]

theorem redirectOut_ok (h : OutOpens p.disk file) :
    redirectTo STDOUT_FILENO true file p (p.openOut file) =
      .ok { p with
        fds := p.fds.moved (.writing (p.disk.file file)) STDOUT_FILENO
        disk := p.disk.created file } := by
  simp only [redirectTo, Process.openOut, h.1, h.2, if_true]
  rfl

theorem redirectIn_ok (h : InOpens p.disk file) :
    redirectTo STDIN_FILENO false file p (p.openIn file) =
      .ok { p with fds := p.fds.moved (.reading (p.disk.file file)) STDIN_FILENO } := by
  simp only [redirectTo, openIn_eq, h.1, h.2, if_true]
  rfl

theorem redirectOut_fails (h : ¬ OutOpens p.disk file) :
    ∃ q, redirectTo STDOUT_FILENO true file p (p.openOut file) = .error q := by
  cases hrefusal : p.disk.refusal true file with
  | some e =>
    simp only [redirectTo, Process.openOut, hrefusal]
    exact ⟨_, rfl⟩
  | none =>
    have hclose : p.disk.closes true file = false := by simpa [OutOpens, hrefusal] using h
    simp only [redirectTo, Process.openOut, hrefusal, hclose, Bool.false_eq_true, if_false]
    exact ⟨_, rfl⟩

theorem redirectIn_fails (h : ¬ InOpens p.disk file) :
    ∃ q, redirectTo STDIN_FILENO false file p (p.openIn file) = .error q := by
  cases hrefusal : inRefusal p.disk file with
  | some e =>
    simp only [redirectTo, openIn_eq, hrefusal]
    exact ⟨_, rfl⟩
  | none =>
    have hclose : p.disk.closes false file = false := by simpa [InOpens, hrefusal] using h
    simp only [redirectTo, openIn_eq, hrefusal, hclose, Bool.false_eq_true, if_false]
    exact ⟨_, rfl⟩

/-! ### Both redirections -/

/-- The disk after the output was redirected. -/
def afterOut (d : Disk) (outfile : Option Bytes) : Disk := outfile.elim d d.created

def Opens (d : Disk) (outfile infile : Option Bytes) : Prop :=
  (∀ file ∈ outfile, OutOpens d file) ∧ ∀ file ∈ infile, InOpens (afterOut d outfile) file

/-- A closed standard input stays closed, and so does a closed standard output unless the standard
    input is closed too. -/
structure Redirected (p p' : Process) (outfile infile : Option Bytes) : Prop where
  input : p'.fds.get STDIN_FILENO = infile.elim (p.fds.get STDIN_FILENO) fun file =>
    if (p.fds.get STDIN_FILENO).isSome then some (.reading (p.disk.file file)) else none
  output : p'.fds.get STDOUT_FILENO = outfile.elim (p.fds.get STDOUT_FILENO) fun file =>
    if (p.fds.get STDIN_FILENO).isSome ∧ (p.fds.get STDOUT_FILENO).isNone then none
    else some (.writing (p.disk.file file))
  others : ∀ k, STDOUT_FILENO < k → p'.fds.get k = p.fds.get k
  disk : p'.disk = afterOut p.disk outfile
  sent : p'.sent = p.sent

theorem lowest_stdin : t.lowest = STDIN_FILENO ↔ (t.get STDIN_FILENO).isSome = false := by
  rw [Descriptors.lowest_eq_iff, Option.isSome_eq_false_iff, Option.isNone_iff_eq_none]
  exact ⟨fun h => h.1, fun h => ⟨h, fun j hj => absurd hj (Nat.not_lt_zero j)⟩⟩

theorem lowest_stdout : t.lowest = STDOUT_FILENO ↔
    (t.get STDIN_FILENO).isSome ∧ (t.get STDOUT_FILENO).isNone := by
  rw [Descriptors.lowest_eq_iff, Option.isNone_iff_eq_none]
  constructor
  · rintro ⟨hnone, hbelow⟩
    exact ⟨hbelow 0 Nat.one_pos, hnone⟩
  · rintro ⟨hin, hnone⟩
    refine ⟨hnone, fun j hj => ?_⟩
    obtain rfl : j = 0 := Nat.lt_one_iff.mp hj
    exact hin

theorem moved_out (t : Descriptors Descr) (f k : ℕ) :
    (t.moved (.writing f) STDOUT_FILENO).get k = if k = STDOUT_FILENO then
      (if (t.get STDIN_FILENO).isSome ∧ (t.get STDOUT_FILENO).isNone then none
      else some (.writing f)) else t.get k := by
  rw [Descriptors.moved_get]
  simp only [lowest_stdout]

theorem moved_in (t : Descriptors Descr) (f k : ℕ) :
    (t.moved (.reading f) STDIN_FILENO).get k = if k = STDIN_FILENO then
      (if (t.get STDIN_FILENO).isSome then some (.reading f) else none) else t.get k := by
  rw [Descriptors.moved_get]
  simp only [lowest_stdin]
  cases (t.get STDIN_FILENO).isSome <;> rfl

/-- The process between the two redirections. -/
def between (p : Process) (outfile : Option Bytes) : Process :=
  outfile.elim p fun file =>
    { p with
      fds := p.fds.moved (.writing (p.disk.file file)) STDOUT_FILENO
      disk := p.disk.created file }

def afterIn (p : Process) (infile : Option Bytes) : Process :=
  infile.elim p fun file => { p with fds := p.fds.moved (.reading (p.disk.file file)) STDIN_FILENO }

theorem between_disk (p : Process) (outfile : Option Bytes) :
    (between p outfile).disk = afterOut p.disk outfile := by
  cases outfile <;> rfl

theorem between_file (p : Process) (outfile : Option Bytes) :
    (between p outfile).disk.file = p.disk.file := by
  cases outfile <;> rfl

theorem redirection_ok (h : Opens p.disk outfile infile) :
    redirection outfile infile p = .ok (afterIn (between p outfile) infile) := by
  cases outfile with
  | none =>
    cases infile with
    | none => rfl
    | some file => exact redirectIn_ok (h.2 file rfl)
  | some out =>
    have hout := redirectOut_ok (h.1 out rfl)
    cases infile with
    | none =>
      simp only [redirection, hout]
      rfl
    | some file =>
      simp only [redirection, hout]
      exact redirectIn_ok (p := between p (some out)) (h.2 file rfl)

theorem redirection_fails (h : ¬ Opens p.disk outfile infile) :
    ∃ q, redirection outfile infile p = .error q := by
  cases outfile with
  | none =>
    cases infile with
    | none => exact absurd ⟨by simp, by simp⟩ h
    | some file =>
      refine redirectIn_fails (p := p) fun hin => h ⟨by simp, fun f hf => ?_⟩
      cases hf
      exact hin
  | some out =>
    by_cases hout : OutOpens p.disk out
    · cases infile with
      | none =>
        refine absurd ⟨fun f hf => ?_, by simp⟩ h
        cases hf
        exact hout
      | some file =>
        simp only [redirection, redirectOut_ok hout]
        refine redirectIn_fails (p := between p (some out)) fun hin =>
          h ⟨fun f hf => ?_, fun f hf => ?_⟩
        · cases hf
          exact hout
        · cases hf
          exact hin
    · obtain ⟨q, hq⟩ := redirectOut_fails hout
      simp only [redirection, hq]
      exact ⟨q, rfl⟩

theorem redirected (p : Process) (outfile infile : Option Bytes) :
    Redirected p (afterIn (between p outfile) infile) outfile infile := by
  have hout : ∀ k, (between p outfile).fds.get k = if k = STDOUT_FILENO then
      outfile.elim (p.fds.get STDOUT_FILENO) (fun file =>
        if (p.fds.get STDIN_FILENO).isSome ∧ (p.fds.get STDOUT_FILENO).isNone then none
        else some (.writing (p.disk.file file))) else p.fds.get k := by
    intro k
    cases outfile with
    | none =>
      by_cases hk : k = STDOUT_FILENO
      · rw [if_pos hk, hk]
        rfl
      · rw [if_neg hk]
        rfl
    | some out => exact moved_out p.fds (p.disk.file out) k
  have hin : ∀ k, (afterIn (between p outfile) infile).fds.get k = if k = STDIN_FILENO then
      infile.elim (p.fds.get STDIN_FILENO) (fun file =>
        if (p.fds.get STDIN_FILENO).isSome then some (.reading (p.disk.file file)) else none)
      else (between p outfile).fds.get k := by
    intro k
    have hsame : (between p outfile).fds.get STDIN_FILENO = p.fds.get STDIN_FILENO := hout STDIN_FILENO
    cases infile with
    | none =>
      by_cases hk : k = STDIN_FILENO
      · rw [if_pos hk, hk]
        exact hsame
      · rw [if_neg hk]
        rfl
    | some file =>
      rw [← hsame, ← between_file p outfile]
      exact moved_in _ _ k
  refine ⟨hin STDIN_FILENO, (hin STDOUT_FILENO).trans (hout STDOUT_FILENO), fun k hk => ?_, ?_, ?_⟩
  · have h1 : k ≠ STDOUT_FILENO := Nat.ne_of_gt hk
    have h0 : k ≠ STDIN_FILENO := Nat.ne_of_gt (Nat.lt_trans Nat.one_pos hk)
    rw [hin, if_neg h0, hout, if_neg h1]
  · rw [← between_disk]
    cases infile <;> rfl
  · cases outfile <;> cases infile <;> rfl

/-- The message about the input goes to the output file, which holds nothing else. -/
theorem redirection_complains {text : Bytes} (hout : OutOpens p.disk out)
    (hin : inRefusal (p.disk.created out) file = some e) (htext : message file e = some text)
    (hopen : (p.fds.get STDOUT_FILENO).isSome) :
    ∃ q, redirection (some out) (some file) p = .error q ∧
      q.disk.content (p.disk.file out) = some text ∧
      ∀ f, f ≠ p.disk.file out → q.disk.content f = p.disk.content f := by
  have hstdout : (p.fds.moved (.writing (p.disk.file out)) STDOUT_FILENO).get STDOUT_FILENO =
      some (.writing (p.disk.file out)) := by
    rw [moved_out, if_pos rfl, if_neg fun h => ?_]
    rw [Option.isNone_iff_eq_none.mp h.2] at hopen
    cases hopen
  have hin' : inRefusal (between p (some out)).disk file = some e := hin
  have hrun : redirection (some out) (some file) p =
      .error (complain e file (between p (some out))) := by
    simp only [redirection, redirectOut_ok hout]
    change redirectTo STDIN_FILENO false file (between p (some out))
      ((between p (some out)).openIn file) = _
    simp only [redirectTo, openIn_eq, hin']
  refine ⟨_, hrun, ?_, fun f hf => ?_⟩
  · simp [complain, htext, Process.sio_printf, hstdout, between, Disk.created]
  · simp [complain, htext, Process.sio_printf, hstdout, between, Disk.created, hf]

theorem redirection_exact (p : Process) (outfile infile : Option Bytes) :
    ((∃ p', redirection outfile infile p = .ok p') ↔ Opens p.disk outfile infile) ∧
    (∀ p', redirection outfile infile p = .ok p' → Redirected p p' outfile infile) ∧
    ∀ out file e text, outfile = some out → infile = some file → OutOpens p.disk out →
      inRefusal (p.disk.created out) file = some e → message file e = some text →
      (p.fds.get STDOUT_FILENO).isSome → ∃ q, redirection outfile infile p = .error q ∧
        q.disk.content (p.disk.file out) = some text ∧
        ∀ f, f ≠ p.disk.file out → q.disk.content f = p.disk.content f := by
  refine ⟨⟨fun ⟨p', hp'⟩ => ?_, fun h => ⟨_, redirection_ok h⟩⟩, fun p' hp' => ?_, ?_⟩
  · by_contra h
    obtain ⟨q, hq⟩ := redirection_fails h
    rw [hq] at hp'
    cases hp'
  · by_cases h : Opens p.disk outfile infile
    · rw [redirection_ok h] at hp'
      cases hp'
      exact redirected p outfile infile
    · obtain ⟨q, hq⟩ := redirection_fails h
      rw [hq] at hp'
      cases hp'
  · rintro out file e text rfl rfl hout hin htext hopen
    exact redirection_complains hout hin htext hopen

end Labs.Shell.Redirect
