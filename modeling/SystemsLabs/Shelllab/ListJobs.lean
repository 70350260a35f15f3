import SystemsLabs.Csapp.SioShell
import SystemsLabs.Shelllab.BackFore

/-! @lab shelllab | file:tsh_helper.c (list_jobs) | structure:listing of the job table |
    main result:the listing determines the jobs

    The jobs in the order of their slots, one line each, until a write fails. `jid` and `pid` are
    `int`s. The descriptor is one that is open: a negative one, at which `list_jobs` aborts, is left
    out, and so is the message about a failed write, which goes to another descriptor. -/

namespace Labs.Shell
open Schemes Labs.Sio
open Labs.Http.Relay (Client)

/-- `"[%d] (%d) %s%s\n"` -/
def listFormat : Buffer 16 := ⟨str "[%d] (%d) %s%s\n" ++ [0], rfl⟩

def statusText : JobState → Option Bytes
  | .BG => some (str "Running    ")
  | .FG => some (str "Foreground ")
  | .ST => some (str "Stopped    ")
  | .UNDEF => none

/-- A string as an argument. All that counts of its address is whether it is `NULL`. -/
def stringArg : Option Bytes → VarArg
  | some text => .ptr 1 text
  | none => .ptr 0 []

def listArgs (job : Job) : List VarArg :=
  [.word (BitVec.ofInt 32 job.jid), .word (BitVec.ofInt 32 job.pid),
    stringArg (statusText job.state), stringArg job.cmdline]

/-- The loop of `list_jobs` over the slots that are left. -/
def listLoop (buf : Buffer 128) (fuel : ℕ) (l : JobList) :
    List (Fin MAXJOBS) → Client → Except Stop (Bool × Client)
  | [], out => .ok (true, out)
  | i :: slots, out =>
    if l.state i = .UNDEF then listLoop buf fuel l slots out
    else do
      let (res, out) ← Labs.Sio.Shell.sio_vdprintf buf fuel out listFormat (listArgs (l.job_list i))
      if res < 0 then .ok (false, out) else listLoop buf fuel l slots out

def list_jobs (buf : Buffer 128) (fuel : ℕ) (l : JobList) (out : Client) :
    Except Stop (Bool × Client) :=
  listLoop buf fuel l (List.finRange MAXJOBS) out

/-! ### What is listed -/

/-- A job as it is listed. -/
structure Entry where
  jid : ℤ
  pid : ℤ
  status : Bytes
  cmdline : Bytes

def Entry.line (e : Entry) : Bytes :=
  str "[" ++ intNumeral 10 e.jid ++ str "] (" ++ intNumeral 10 e.pid ++ str ") " ++ e.status ++
    e.cmdline ++ str "\n"

/-- The status has 11 characters, and the command line is one line. -/
structure Entry.Readable (e : Entry) : Prop where
  status : e.status.length = 11
  cmdline : 10 ∉ e.cmdline

namespace JobList
variable {l l' : JobList} {i : Fin MAXJOBS} {slots : List (Fin MAXJOBS)} {buf : Buffer 128}

/-- The job in a slot, if there is one. -/
def entry (l : JobList) (i : Fin MAXJOBS) : Option Entry :=
  (statusText (l.state i)).map fun status =>
    ⟨(l.job_list i).jid, (l.job_list i).pid, status, cstr ((l.job_list i).cmdline.getD [])⟩

def entries (l : JobList) (slots : List (Fin MAXJOBS)) : List Entry := slots.filterMap l.entry

def listing (l : JobList) (slots : List (Fin MAXJOBS)) : Bytes := (l.entries slots).flatMap Entry.line

/-- What `int`s can hold, and no command line is missing. -/
structure Printable (l : JobList) : Prop where
  pid : ∀ i, l.Occupied i → (l.job_list i).pid < 2 ^ 31
  cmdline : ∀ i, l.Occupied i → ((l.job_list i).cmdline).isSome

theorem entry_none (h : l.state i = .UNDEF) : l.entry i = none := by
  rw [entry, h]
  rfl

theorem widen_int {x : ℤ} (hlow : -2 ^ 31 ≤ x) (hhigh : x < 2 ^ 31) :
    (widen .d (BitVec.ofInt 32 x)).toInt = x := by
  rw [widen, if_pos rfl, BitVec.toInt_signExtend_of_le (by decide), BitVec.toInt_ofInt,
    Int.bmod_eq_of_le (by omega) (by omega)]

theorem statusText_cases {state : JobState} (h : state ≠ .UNDEF) :
    ∃ status, statusText state = some status ∧ 0 ∉ status := by
  cases state with
  | UNDEF => exact absurd rfl h
  | FG => exact ⟨_, rfl, by decide⟩
  | BG => exact ⟨_, rfl, by decide⟩
  | ST => exact ⟨_, rfl, by decide⟩

/-- The format has no `%l`. -/
theorem noFall_listFormat : NoFall listFormat := by
  intro p c _ hl _ _
  rw [Buffer.load_eq_ok] at hl
  exact absurd (List.mem_of_getElem? hl) (by decide)

/-- The format prints the line of a job. -/
theorem entry_formats (hok : l.Ok) (hprint : l.Printable) (hi : l.Occupied i) :
    ∃ e, l.entry i = some e ∧
      Formats (str "[%d] (%d) %s%s\n") (listArgs (l.job_list i)) e.line ∧
      NoNull (listArgs (l.job_list i)) := by
  obtain ⟨status, hstatus, hnul⟩ := statusText_cases hi
  obtain ⟨text, htext⟩ := Option.isSome_iff_exists.mp (hprint.cmdline i hi)
  have hjid : (widen .d (BitVec.ofInt 32 (l.job_list i).jid)).toInt = (l.job_list i).jid := by
    have hlt := i.isLt
    rw [hok.jid i hi, jidOf]
    exact widen_int (by omega) (by simp only [MAXJOBS] at hlt; omega)
  have hpid : (widen .d (BitVec.ofInt 32 (l.job_list i).pid)).toInt = (l.job_list i).pid :=
    widen_int (by have := hok.pid i hi; omega) (hprint.pid i hi)
  have hentry : l.entry i = some ⟨(l.job_list i).jid, (l.job_list i).pid, status, cstr text⟩ := by
    rw [entry, hstatus, htext]
    rfl
  have hargs : listArgs (l.job_list i) = [.word (BitVec.ofInt 32 (l.job_list i).jid)] ++
      ([.word (BitVec.ofInt 32 (l.job_list i).pid)] ++ ([.ptr 1 status] ++ ([.ptr 1 text] ++ []))) := by
    rw [listArgs, show statusText (l.job_list i).state = some status from hstatus, htext]
    rfl
  have hformat : str "[%d] (%d) %s%s\n" = 91 :: 37 :: ([100] ++ (93 :: 32 :: 40 :: 37 ::
      ([100] ++ (41 :: 32 :: 37 :: ([115] ++ (37 :: ([115] ++ [10]))))))) := by decide
  have hline : ∀ a b c d, Entry.line ⟨a, b, c, d⟩ = 91 :: (intNumeral 10 a ++ 93 :: 32 :: 40 ::
      (intNumeral 10 b ++ 41 :: 32 :: (c ++ (d ++ [10])))) := fun a b c d => by
    simp only [Entry.line, List.append_assoc]
    rfl
  refine ⟨_, hentry, ?_, ?_⟩
  · have hformats := Formats.char 91 (by decide)
      (.spec (.int 100 .d (BitVec.ofInt 32 (l.job_list i).jid) rfl)
        (.char 93 (by decide) (.char 32 (by decide) (.char 40 (by decide)
          (.spec (.int 100 .d (BitVec.ofInt 32 (l.job_list i).pid) rfl)
            (.char 41 (by decide) (.char 32 (by decide)
              (.spec (.string 1 status (by decide)) (.spec (.string 1 text (by decide))
                (.char 10 (by decide) (.done [])))))))))))
    simp only [ConvertType.text, hjid, hpid, cstr_of_not_mem hnul] at hformats
    rw [hformat, hargs, hline]
    exact hformats
  · intro a ha bytes
    rw [hargs] at ha
    simp only [List.cons_append, List.nil_append, List.mem_cons, List.not_mem_nil, or_false] at ha
    rcases ha with rfl | rfl | rfl | rfl <;> simp

/-- The jobs are listed in their order, up to the write that fails if one does. -/
theorem listLoop_sent (buf : Buffer 128) (hok : l.Ok) (hprint : l.Printable) :
    ∀ (slots : List (Fin MAXJOBS)) (out : Client), ∃ res out', Sent out (l.listing slots) res out' ∧
      Converges (fun fuel => listLoop buf fuel l slots out) (res, out')
  | [], out => ⟨true, out, .nil, Converges.const⟩
  | i :: slots, out => by
      by_cases hi : l.state i = .UNDEF
      · obtain ⟨res, out', hsent, hrun⟩ := listLoop_sent buf hok hprint slots out
        have hsame : l.listing (i :: slots) = l.listing slots := by
          rw [listing, entries, List.filterMap_cons, entry_none hi]
          rfl
        refine ⟨res, out', hsame ▸ hsent, ?_⟩
        simp only [listLoop, if_pos hi]
        exact hrun
      · obtain ⟨e, he, hformats, hnull⟩ := entry_formats hok hprint hi
        have hmore : l.listing (i :: slots) = e.line ++ l.listing slots := by
          rw [listing, entries, List.filterMap_cons, he]
          rfl
        have hat : listFormat.At [] (str "[%d] (%d) %s%s\n") := ⟨⟨[], rfl⟩, by decide⟩
        obtain ⟨res, out₁, hsent, hrun⟩ := shell_formats hformats hat hnull noFall_listFormat buf out
        simp only [listLoop, if_neg hi, hmore]
        cases res with
        | false =>
          exact ⟨false, out₁, hsent.stop, hrun.bind Converges.const⟩
        | true =>
          obtain ⟨res, out', hsent', hrun'⟩ := listLoop_sent buf hok hprint slots out₁
          refine ⟨res, out', hsent.append hsent', hrun.bind ?_⟩
          have hret : ¬ ((e.line.length : ℤ) < 0) := by omega
          simp only [if_true, if_neg hret]
          exact hrun'

/-! ### Reading the listing -/

/-- What two texts say before the same character, neither having it earlier. -/
theorem split_at {c : UInt8} {a b x y : Bytes} (ha : c ∉ a) (hb : c ∉ b)
    (h : a ++ c :: x = b ++ c :: y) : a = b ∧ x = y := by
  have htake := congrArg (List.takeWhile (· ≠ c)) h
  rw [takeWhile_ne ha, takeWhile_ne hb] at htake
  subst htake
  exact ⟨rfl, by simpa using h⟩

theorem intNumeral_not_mem {c : UInt8} (hc : ¬ isdigit c = true) (hsign : c ≠ 45) (x : ℤ) :
    c ∉ intNumeral 10 x := by
  intro hmem
  rw [intNumeral, List.mem_append] at hmem
  rcases hmem with hmem | hmem
  · split at hmem
    · exact hsign (List.mem_singleton.mp hmem)
    · cases hmem
  · exact hc (isdigit_numeral _ c hmem)

theorem intNumeral_inj {x y : ℤ} (h : intNumeral 10 x = intNumeral 10 y) : x = y := by
  rw [← intValue_intNumeral (b := 10) (by decide) (by decide) x, h,
    intValue_intNumeral (by decide) (by decide)]

theorem line_eq (e : Entry) (x : Bytes) : e.line ++ x = 91 :: (intNumeral 10 e.jid ++
    93 :: 32 :: 40 :: (intNumeral 10 e.pid ++ 41 :: 32 :: (e.status ++ (e.cmdline ++ 10 :: x)))) := by
  simp only [Entry.line, List.append_assoc]
  rfl

/-- A line is read back, and where it ends. -/
theorem line_inj {e e' : Entry} {x y : Bytes} (he : e.Readable) (he' : e'.Readable)
    (h : e.line ++ x = e'.line ++ y) : e = e' ∧ x = y := by
  rw [line_eq, line_eq] at h
  obtain ⟨hjid, h⟩ := split_at (intNumeral_not_mem (by decide) (by decide) _)
    (intNumeral_not_mem (by decide) (by decide) _) (List.cons.inj h).2
  obtain ⟨hpid, h⟩ := split_at (intNumeral_not_mem (by decide) (by decide) _)
    (intNumeral_not_mem (by decide) (by decide) _) (List.cons.inj (List.cons.inj h).2).2
  obtain ⟨hstatus, h⟩ := List.append_inj (List.cons.inj h).2 (he.status.trans he'.status.symm)
  obtain ⟨hcmdline, hrest⟩ := split_at he.cmdline he'.cmdline h
  cases e
  cases e'
  simp only at hjid hpid hstatus hcmdline
  rw [intNumeral_inj hjid, intNumeral_inj hpid, hstatus, hcmdline]
  exact ⟨rfl, hrest⟩

theorem lines_inj : ∀ {es es' : List Entry}, (∀ e ∈ es, e.Readable) → (∀ e ∈ es', e.Readable) →
    es.flatMap Entry.line = es'.flatMap Entry.line → es = es'
  | [], [], _, _, _ => rfl
  | [], e :: es, _, _, h => by
      have hlen := congrArg List.length h
      simp [Entry.line, List.flatMap_cons, str] at hlen
  | e :: es, [], _, _, h => by
      have hlen := congrArg List.length h
      simp [Entry.line, List.flatMap_cons, str] at hlen
  | e :: es, e' :: es', hes, hes', h => by
      rw [List.flatMap_cons, List.flatMap_cons] at h
      obtain ⟨rfl, hrest⟩ := line_inj (hes e List.mem_cons_self) (hes' e' List.mem_cons_self) h
      rw [lines_inj (fun e he => hes e (List.mem_cons_of_mem _ he))
        (fun e he => hes' e (List.mem_cons_of_mem _ he)) hrest]

/-- Command lines are single lines. -/
def SingleLines (l : JobList) : Prop :=
  ∀ i, l.Occupied i → ∃ text, (l.job_list i).cmdline = some text ∧ 0 ∉ text ∧ 10 ∉ text

theorem statusText_length {state : JobState} {status : Bytes} (h : statusText state = some status) :
    status.length = 11 := by
  cases state <;> simp only [statusText, reduceCtorEq, Option.some.injEq] at h <;> rw [← h] <;> rfl

theorem statusText_inj {state state' : JobState} (h : statusText state = statusText state') :
    state = state' := by
  cases state <;> cases state' <;> first | rfl | exact absurd h (by decide)

theorem entry_cases {e : Entry} (h : l.entry i = some e) : l.Occupied i ∧
    statusText (l.state i) = some e.status ∧ e.jid = (l.job_list i).jid ∧
      e.pid = (l.job_list i).pid ∧ e.cmdline = cstr ((l.job_list i).cmdline.getD []) := by
  obtain ⟨status, hstatus, rfl⟩ := Option.map_eq_some_iff.mp h
  refine ⟨fun hi => ?_, hstatus, rfl, rfl, rfl⟩
  rw [hi] at hstatus
  cases hstatus

theorem entries_readable (hsingle : l.SingleLines) : ∀ e ∈ l.entries slots, e.Readable := by
  intro e he
  obtain ⟨i, -, he⟩ := List.mem_filterMap.mp he
  obtain ⟨hi, hstatus, -, -, hcmdline⟩ := entry_cases he
  obtain ⟨text, htext, hnul, hline⟩ := hsingle i hi
  refine ⟨statusText_length hstatus, ?_⟩
  rw [hcmdline, htext, Option.getD_some, cstr_of_not_mem hnul]
  exact hline

/-- A job of one table is in the other, in the same slot. -/
theorem job_of_listing (hok : l.Ok) (hok' : l'.Ok) (hsingle : l.SingleLines)
    (hsingle' : l'.SingleLines)
    (h : l.listing (List.finRange MAXJOBS) = l'.listing (List.finRange MAXJOBS))
    (hi : l.Occupied i) : l'.Occupied i ∧ l.job_list i = l'.job_list i := by
  have hsame := lines_inj (entries_readable hsingle) (entries_readable hsingle') h
  obtain ⟨e, hentry⟩ : ∃ e, l.entry i = some e := by
    obtain ⟨status, hstatus, -⟩ := statusText_cases hi
    exact ⟨_, Option.map_eq_some_iff.mpr ⟨status, hstatus, rfl⟩⟩
  have hmem : e ∈ l.entries (List.finRange MAXJOBS) :=
    List.mem_filterMap.mpr ⟨i, List.mem_finRange i, hentry⟩
  rw [hsame] at hmem
  obtain ⟨j, -, hentry'⟩ := List.mem_filterMap.mp hmem
  obtain ⟨-, hstatus, hjid, hpid, hcmdline⟩ := entry_cases hentry
  obtain ⟨hj, hstatus', hjid', hpid', hcmdline'⟩ := entry_cases hentry'
  have hij : i = j := by
    rw [hjid, hok.jid i hi, hok'.jid j hj, jidOf, jidOf] at hjid'
    exact Fin.ext (by omega)
  subst hij
  obtain ⟨text, htext, hnul, -⟩ := hsingle i hi
  obtain ⟨text', htext', hnul', -⟩ := hsingle' i hj
  rw [htext, Option.getD_some, cstr_of_not_mem hnul] at hcmdline
  rw [htext', Option.getD_some, cstr_of_not_mem hnul'] at hcmdline'
  have hstate : (l.job_list i).state = (l'.job_list i).state :=
    statusText_inj (hstatus.trans hstatus'.symm)
  refine ⟨hj, ?_⟩
  cases hjob : l.job_list i
  cases hjob' : l'.job_list i
  simp only [hjob, hjob'] at hjid hjid' hpid hpid' hstate htext htext'
  rw [← hjid, ← hjid', ← hpid, ← hpid', hstate, htext, htext', ← hcmdline, ← hcmdline']

/-- `list_jobs` prints the listing of the table as a whole and returns `true`, or a part of it that
    is not the whole and returns `false`; the latter exactly if a write that it comes to fails. -/
theorem list_jobs_prints (hok : l.Ok) (hprint : l.Printable) (buf : Buffer 128) (out : Client) :
    ∃ res out', Sent out (l.listing (List.finRange MAXJOBS)) res out' ∧
      Converges (fun fuel => list_jobs buf fuel l out) (res, out') ∧
      (res = false ↔ ∃ used, out.answers = used ++ .error :: out'.answers ∧ .error ∉ used) := by
  obtain ⟨res, out', hsent, hrun⟩ := listLoop_sent buf hok hprint (List.finRange MAXJOBS) out
  exact ⟨res, out', hsent, hrun, hsent.failed_iff⟩

/-- The output of `list_jobs` tells which jobs there are, and all about them. -/
theorem list_jobs_tells (hok : l.Ok) (hok' : l'.Ok) (hprint : l.Printable) (hprint' : l'.Printable)
    (hsingle : l.SingleLines) (hsingle' : l'.SingleLines) (buf buf' : Buffer 128) {out out' : Client}
    (text : Bytes)
    (hrun : ∃ after, Converges (fun fuel => list_jobs buf fuel l out) (true, after) ∧
      after.received = out.received ++ text)
    (hrun' : ∃ after, Converges (fun fuel => list_jobs buf' fuel l' out') (true, after) ∧
      after.received = out'.received ++ text) :
    ∀ i, (l.Occupied i ↔ l'.Occupied i) ∧ (l.Occupied i → l.job_list i = l'.job_list i) := by
  have hlisting : ∀ {buf : Buffer 128} {l : JobList} {out : Client}, l.Ok → l.Printable →
      (∃ after, Converges (fun fuel => list_jobs buf fuel l out) (true, after) ∧
        after.received = out.received ++ text) → l.listing (List.finRange MAXJOBS) = text := by
    rintro buf l out hok hprint ⟨after, hrun, hrec⟩
    obtain ⟨res, after', hsent, hrun'⟩ := listLoop_sent buf hok hprint (List.finRange MAXJOBS) out
    obtain ⟨rfl, rfl⟩ := Prod.mk.inj (hrun.unique hrun')
    cases hsent with
    | whole _ _ hrec' _ _ => exact List.append_cancel_left (hrec'.symm.trans hrec)
  have h := (hlisting hok hprint hrun).trans (hlisting hok' hprint' hrun').symm
  intro i
  exact ⟨⟨fun hi => (job_of_listing hok hok' hsingle hsingle' h hi).1,
    fun hi => (job_of_listing hok' hok hsingle' hsingle h.symm hi).1⟩,
    fun hi => (job_of_listing hok hok' hsingle hsingle' h hi).2⟩

/-! ### Typing what is listed -/

theorem decimal_intNumeral {x : ℤ} (hx : 0 ≤ x) : Decimal (intNumeral 10 x) x := by
  have hsign : ¬ x < 0 := not_lt.mpr hx
  obtain ⟨hne, hdigits, hvalue⟩ := decimal_numeral x.natAbs
  rw [intNumeral, if_neg hsign, List.nil_append]
  refine ⟨hne, hdigits, hvalue.trans ?_⟩
  omega

/-- Either number of a line names its job. -/
theorem entry_designates (hok : l.Ok) {e : Entry} (he : l.entry i = some e) :
    Designates l (37 :: intNumeral 10 e.jid) i ∧ Designates l (intNumeral 10 e.pid) i := by
  obtain ⟨hi, -, hjid, hpid, -⟩ := entry_cases he
  have hpos := jidOf_pos i
  refine ⟨⟨hi, Or.inl ⟨_, rfl, ?_⟩⟩, hi, Or.inr ?_⟩
  · rw [hjid, hok.jid i hi]
    exact decimal_intNumeral (by omega)
  · rw [hpid]
    exact decimal_intNumeral (le_of_lt (hok.pid i hi))

/-- In the listing there is a line for every job. Its job ID behind `%`, or its process ID, as they
    are printed, are arguments with which `bg` and `fg` act on that job. -/
theorem listed_resumes (hl : Ready l) (hi : l.Occupied i) (backg : Bool) (jid pid : ℤ) :
    ∃ e : Entry, e.line <:+: l.listing (List.finRange MAXJOBS) ∧
      (builtin_back_fore l backg (some (37 :: intNumeral 10 e.jid)) jid pid).ActsOn l backg i ∧
      (builtin_back_fore l backg (some (intNumeral 10 e.pid)) jid pid).ActsOn l backg i := by
  obtain ⟨status, hstatus, -⟩ := statusText_cases hi
  obtain ⟨e, he⟩ : ∃ e, l.entry i = some e := ⟨_, Option.map_eq_some_iff.mpr ⟨status, hstatus, rfl⟩⟩
  have hmem : e ∈ l.entries (List.finRange MAXJOBS) :=
    List.mem_filterMap.mpr ⟨i, List.mem_finRange i, he⟩
  obtain ⟨before, after, hsplit⟩ := List.append_of_mem hmem
  obtain ⟨hjid, hpid⟩ := entry_designates hl.ok he
  refine ⟨e, ⟨before.flatMap Entry.line, after.flatMap Entry.line, ?_⟩, hl.acts hjid, hl.acts hpid⟩
  rw [listing, hsplit, List.flatMap_append, List.flatMap_cons, List.append_assoc]

/-! ### One job -/

theorem printable_oneJob : oneJob.Printable where
  pid i hi := by
    rw [oneJob_occupied.mp hi]
    decide
  cmdline i hi := by
    rw [oneJob_occupied.mp hi]
    rfl

theorem singleLines_oneJob : oneJob.SingleLines := fun i hi => by
  rw [oneJob_occupied.mp hi]
  exact ⟨[108, 115], rfl, by decide, by decide⟩

theorem list_jobs_prints_one : ∃ res out',
    Sent ⟨[], [.sent 3, .eintr]⟩ (oneJob.listing (List.finRange MAXJOBS)) res out' ∧
      Converges (fun fuel => list_jobs (Buffer.strncpy 128 []) fuel oneJob ⟨[], [.sent 3, .eintr]⟩)
        (res, out') ∧
      (res = false ↔ ∃ used, [.sent 3, .eintr] = used ++ .error :: out'.answers ∧ .error ∉ used) :=
  list_jobs_prints ready_oneJob.ok printable_oneJob _ _

theorem list_jobs_tells_one : (oneJob.Occupied ⟨0, by decide⟩ ↔ oneJob.Occupied ⟨0, by decide⟩) ∧
    (oneJob.Occupied ⟨0, by decide⟩ →
      oneJob.job_list ⟨0, by decide⟩ = oneJob.job_list ⟨0, by decide⟩) := by
  obtain ⟨res, out', hsent, hrun⟩ := listLoop_sent (Buffer.strncpy 128 []) ready_oneJob.ok
    printable_oneJob (List.finRange MAXJOBS) ⟨[], []⟩
  obtain ⟨rfl, hrec, -⟩ := hsent.unbroken (by simp)
  exact list_jobs_tells ready_oneJob.ok ready_oneJob.ok printable_oneJob printable_oneJob
    singleLines_oneJob singleLines_oneJob _ _ _ ⟨out', hrun, hrec⟩ ⟨out', hrun, hrec⟩ ⟨0, by decide⟩

theorem listed_resumes_one : ∃ e : Entry, e.line <:+: oneJob.listing (List.finRange MAXJOBS) ∧
    (builtin_back_fore oneJob true (some (37 :: intNumeral 10 e.jid)) 0 0).ActsOn oneJob true
      ⟨0, by decide⟩ ∧
    (builtin_back_fore oneJob true (some (intNumeral 10 e.pid)) 0 0).ActsOn oneJob true
      ⟨0, by decide⟩ :=
  listed_resumes ready_oneJob (oneJob_occupied.mpr rfl) true 0 0

end JobList

end Labs.Shell
