import SystemsLabs.Shelllab.TshLaunch

/-! @lab shelllab | file:tsh.c (builtin_back_fore) | structure:one command |
    main result:when `bg` and `fg` are all or nothing

    The whole command, up to the wait of `fg`. The job ID after `%` is looked up before anything is
    done with it; a process ID is not, so a number that is no job's is signalled, or its missing job
    aborts the shell. `sscanf` reads a number and leaves what follows it, and it leaves the variable
    as it was when the argument has nothing to read: both make an argument that names no job act on
    one. What the variables hold then is a parameter. -/

namespace Labs.Shell
open Schemes JobList

/-- What a call prints with `sio_printf`. -/
inductive Message where
  | refusal (why : Refusal)
  /-- `[jid] (pid) cmdline` -/
  | announce (jid pid : ℤ) (cmdline : Option Bytes)
  deriving DecidableEq, Repr

/-- What a call does: the lines it prints, whom it sends `SIGCONT`, the list it leaves, the abort it
    ends with, if any. -/
structure Resumed where
  printed : List Message
  killed : List ℤ
  list : JobList
  halt : Option Halt

/-- From "background job (built-in)" on. -/
def resumeJob (l : JobList) (backg : Bool) (jid pid : ℤ) : Resumed :=
  match (if backg then (l.job_get_cmdline jid).map fun line => [Message.announce jid pid line]
    else .ok []) with
  | .error e => ⟨[], [], l, some e⟩
  | .ok printed =>
    match l.job_set_state (l.job_from_pid pid) (if backg then .BG else .FG) with
    | .error e => ⟨printed, [-pid], l, some e⟩
    | .ok l' => ⟨printed, [-pid], l', none⟩

def builtin_back_fore (l : JobList) (backg : Bool) (arg : Option Bytes) (jid pid : ℤ) : Resumed :=
  match backForeTarget l arg jid pid with
  | .error e => ⟨[], [], l, some e⟩
  | .ok (.refuse why) => ⟨[.refusal why], [], l, none⟩
  | .ok (.act jid pid) => resumeJob l backg jid pid

/-! ### All or nothing -/

/-- The text names the job in slot `i`: `%` and its job ID, or its process ID, in decimal. -/
def Designates (l : JobList) (text : Bytes) (i : Fin MAXJOBS) : Prop :=
  l.Occupied i ∧ ((∃ t, text = 37 :: t ∧ Decimal t (jidOf i)) ∨ Decimal text (l.job_list i).pid)

/-- The call continues the job in slot `i` and sets its state, and that is all. -/
def Resumed.ActsOn (d : Resumed) (l : JobList) (backg : Bool) (i : Fin MAXJOBS) : Prop :=
  d.killed = [-(l.job_list i).pid] ∧ d.list = l.setState i (if backg then .BG else .FG) ∧
    (∀ why, Message.refusal why ∉ d.printed) ∧ d.halt = none

/-- The call prints an error, and that is all. -/
def Resumed.Refuses (d : Resumed) (l : JobList) : Prop :=
  (∃ why, d.printed = [.refusal why]) ∧ d.killed = [] ∧ d.list = l ∧ d.halt = none

def AllOrNothing (l : JobList) (backg : Bool) (arg : Option Bytes) (jid pid : ℤ) : Prop :=
  (∀ text i, arg = some text → Designates l text i →
    (builtin_back_fore l backg arg jid pid).ActsOn l backg i) ∧
  ((∀ text i, arg = some text → ¬ Designates l text i) →
    (builtin_back_fore l backg arg jid pid).Refuses l)

/-- The argument names a job; or there is none; or it starts with `%`, and something that is no number
    follows, or a number that is no job's (nothing or blanks stand for what `jid` held); or it starts
    otherwise and something that is no number is in front. -/
def Understood (l : JobList) (arg : Option Bytes) (jid : ℤ) : Prop :=
  (∃ text i, arg = some text ∧ Designates l text i) ∨ arg = none ∨
  (∃ t, arg = some (37 :: t) ∧
    (scanInt t = .mismatch ∨ l.job_exists ((scanInt t).orElse jid) = false)) ∨
  ∃ text, arg = some text ∧ text[0]? ≠ some 37 ∧ scanInt text = .mismatch

/-- The list as `eval` has it when it calls the command. -/
structure Ready (l : JobList) : Prop where
  ok : l.Ok
  idle : l.NoForeground
  unique : l.Unique
  /-- A `pid_t` is an `int`. -/
  int : ∀ i, l.Occupied i → (l.job_list i).pid < 2 ^ 31

section Ready
variable {l : JobList} {i : Fin MAXJOBS} {backg : Bool} {arg : Option Bytes} {jid pid : ℤ}
  {text t : Bytes}

/-- In every run of the shell the command finds such a list. -/
theorem ready_reachable {s : Tsh} (h : tsh.Reachable s) (hpc : s.main = .backFore backg arg)
    (hint : ∀ i, s.list.Occupied i → (s.list.job_list i).pid < 2 ^ 31) : Ready s.list := by
  obtain ⟨hs, ⟨why, hend⟩ | hl⟩ := listing_reachable h
  · rw [hpc] at hend
    cases hend
  · refine ⟨hs.ok, hs.fg.resolve_left ?_, hl.unique, hint⟩
    rw [hpc]
    exact id

theorem Ready.from_pid (hl : Ready l) (hi : l.Occupied i) :
    l.job_from_pid (l.job_list i).pid = jidOf i := by
  rcases job_from_pid_cases l hl.ok.pid (l.job_list i).pid with ⟨-, hnone⟩ | ⟨j, hj, hocc, hpid⟩
  · exact absurd rfl (hnone i hi)
  · rw [hj, hl.unique j i hocc hi hpid]

theorem decimal_head (h : Decimal text pid) : text[0]? ≠ some 37 := by
  obtain ⟨c, cs, rfl⟩ := List.exists_cons_of_ne_nil h.1
  intro hc
  obtain rfl : c = 37 := by simpa using hc
  exact absurd (h.2.1 37 (by simp)) (by decide)

/-! ### The target -/

theorem target_job (pid : ℤ) (hi : l.Occupied i) (hjid : (scanInt t).orElse jid = jidOf i) :
    backForeTarget l (some (37 :: t)) jid pid =
      .ok (if scanInt t = .mismatch then .refuse .notPidOrJid
        else .act (jidOf i) (l.job_list i).pid) := by
  rw [backForeTarget, if_pos (by rfl)]
  simp only [List.drop_succ_cons, List.drop_zero, hjid]
  rw [if_pos (job_exists_jidOf.mpr hi), job_get_pid_jidOf hi]
  rfl

theorem target_no_job (h : l.job_exists ((scanInt t).orElse jid) = false) :
    backForeTarget l (some (37 :: t)) jid pid =
      .ok (.refuse (.noSuchJob ((scanInt t).orElse jid))) := by
  rw [backForeTarget, if_pos (by rfl)]
  simp only [List.drop_succ_cons, List.drop_zero, h]
  rfl

theorem target_pid (l : JobList) (jid pid : ℤ) (h : text[0]? ≠ some 37) :
    backForeTarget l (some text) jid pid =
      .ok (if scanInt text = .mismatch then .refuse .notPidOrJid
        else .act (l.job_from_pid ((scanInt text).orElse pid)) ((scanInt text).orElse pid)) := by
  rw [backForeTarget, if_neg h]

/-- An argument that names a job is that job's. -/
theorem Ready.target (hl : Ready l) (h : Designates l text i) :
    backForeTarget l (some text) jid pid = .ok (.act (jidOf i) (l.job_list i).pid) := by
  obtain ⟨hi, ⟨t, rfl, hjid⟩ | hpid⟩ := h
  · have hsmall : jidOf i < 2 ^ 31 := by
      have hlt : i.val < 64 := i.isLt
      rw [jidOf]
      omega
    have hscan : scanInt t = .value (jidOf i) := scanInt_decimal hjid hsmall
    rw [target_job pid hi (by rw [hscan]; rfl), hscan]
    rfl
  · have hscan := scanInt_decimal hpid (hl.int i hi)
    rw [target_pid l jid pid (decimal_head hpid), hscan]
    simp only [ScanInt.orElse, hl.from_pid hi]
    rfl

theorem Ready.resume (hl : Ready l) (hi : l.Occupied i) :
    (resumeJob l backg (jidOf i) (l.job_list i).pid).ActsOn l backg i := by
  have hset : l.job_set_state (l.job_from_pid (l.job_list i).pid) (if backg then .BG else .FG) =
      .ok (l.setState i (if backg then .BG else .FG)) := by
    rw [hl.from_pid hi]
    refine job_set_state_jidOf hi ?_ fun _ => hl.idle
    cases backg with
    | false => simp
    | true => simp
  rw [resumeJob]
  cases backg with
  | false =>
    simp only [Bool.false_eq_true, if_false] at hset ⊢
    rw [hset]
    exact ⟨rfl, rfl, by simp, rfl⟩
  | true =>
    simp only [if_true] at hset ⊢
    rw [job_get_cmdline_jidOf hi, hset]
    exact ⟨rfl, rfl, by simp [Except.map], rfl⟩

theorem Ready.acts (hl : Ready l) (h : Designates l text i) :
    (builtin_back_fore l backg (some text) jid pid).ActsOn l backg i := by
  rw [builtin_back_fore, hl.target h]
  exact hl.resume h.1

/-- Past the refusals nothing is refused. -/
theorem resumeJob_not_refuses : ¬ (resumeJob l backg jid pid).Refuses l := by
  rintro ⟨⟨why, hprinted⟩, -⟩
  rw [resumeJob] at hprinted
  cases backg with
  | false =>
    simp only [Bool.false_eq_true, if_false] at hprinted
    split at hprinted
    · cases hprinted
    · cases hprinted
  | true =>
    cases hline : l.job_get_cmdline jid with
    | error e =>
      simp only [hline, if_true, Except.map] at hprinted
      cases hprinted
    | ok line =>
      simp only [hline, if_true, Except.map] at hprinted
      split at hprinted
      · cases hprinted
      · cases hprinted

/-- What is refused, by the argument alone. -/
theorem refuses_iff : (builtin_back_fore l backg arg jid pid).Refuses l ↔ arg = none ∨
    (∃ t, arg = some (37 :: t) ∧
      (scanInt t = .mismatch ∨ l.job_exists ((scanInt t).orElse jid) = false)) ∨
    ∃ text, arg = some text ∧ text[0]? ≠ some 37 ∧ scanInt text = .mismatch := by
  have hrefused : ∀ {why}, backForeTarget l arg jid pid = .ok (.refuse why) →
      (builtin_back_fore l backg arg jid pid).Refuses l := by
    intro why htarget
    rw [builtin_back_fore, htarget]
    exact ⟨⟨why, rfl⟩, rfl, rfl, rfl⟩
  have hacted : ∀ {jid' pid'}, backForeTarget l arg jid pid = .ok (.act jid' pid') →
      ¬ (builtin_back_fore l backg arg jid pid).Refuses l := by
    intro jid' pid' htarget
    rw [builtin_back_fore, htarget]
    exact resumeJob_not_refuses
  cases arg with
  | none => exact iff_of_true (hrefused rfl) (Or.inl rfl)
  | some text =>
    rcases em (text[0]? = some 37) with hpercent | hplain
    · obtain ⟨c, t, rfl⟩ : ∃ c t, text = c :: t := by
        cases text with
        | nil => cases hpercent
        | cons c t => exact ⟨c, t, rfl⟩
      obtain rfl : c = 37 := by simpa using hpercent
      rcases hex : l.job_exists ((scanInt t).orElse jid) with _ | _
      · exact iff_of_true (hrefused (target_no_job hex)) (Or.inr (Or.inl ⟨t, rfl, Or.inr hex⟩))
      · obtain ⟨i, hi, hocc⟩ := job_exists_cases hex
        have htarget := target_job pid hocc hi
        rcases em (scanInt t = .mismatch) with hscan | hscan
        · rw [if_pos hscan] at htarget
          exact iff_of_true (hrefused htarget) (Or.inr (Or.inl ⟨t, rfl, Or.inl hscan⟩))
        · rw [if_neg hscan] at htarget
          refine iff_of_false (hacted htarget) ?_
          rintro (h | ⟨t', h, hbad⟩ | ⟨text, h, hne, -⟩)
          · cases h
          · cases h
            rw [hex] at hbad
            exact hbad.elim hscan (fun h => by cases h)
          · cases h
            exact hne rfl
    · have htarget := target_pid l jid pid hplain
      rcases em (scanInt text = .mismatch) with hscan | hscan
      · rw [if_pos hscan] at htarget
        exact iff_of_true (hrefused htarget) (Or.inr (Or.inr ⟨text, rfl, hplain, hscan⟩))
      · rw [if_neg hscan] at htarget
        refine iff_of_false (hacted htarget) ?_
        rintro (h | ⟨t', h, -⟩ | ⟨text', h, -, hbad⟩)
        · cases h
        · cases h
          exact hplain rfl
        · cases h
          exact hscan hbad

/-- `bg` and `fg` act on the job their argument names, and otherwise refuse, exactly when the argument
    names one or is understood not to. -/
theorem all_or_nothing_iff (hl : Ready l) (backg : Bool) (arg : Option Bytes) (jid pid : ℤ) :
    AllOrNothing l backg arg jid pid ↔ Understood l arg jid := by
  have hacts : ∀ text i, arg = some text → Designates l text i →
      (builtin_back_fore l backg arg jid pid).ActsOn l backg i := by
    rintro text i rfl h
    exact hl.acts h
  rcases em (∃ text i, arg = some text ∧ Designates l text i) with hnamed | hnone
  · refine iff_of_true ⟨hacts, fun hno => ?_⟩ (Or.inl hnamed)
    obtain ⟨text, i, harg, h⟩ := hnamed
    exact absurd h (hno text i harg)
  · have hno : ∀ text i, arg = some text → ¬ Designates l text i :=
      fun text i harg h => hnone ⟨text, i, harg, h⟩
    constructor
    · exact fun h => Or.inr (refuses_iff.mp (h.2 hno))
    · exact fun h => ⟨hacts, fun _ => refuses_iff.mpr (h.resolve_left hnone)⟩

end Ready

/-- Job 1 in the background, process 1234. -/
def oneJob : JobList := init_job_list.added ⟨0, Nat.succ_pos 63⟩ 1234 .BG [108, 115]

theorem oneJob_occupied {i : Fin MAXJOBS} : oneJob.Occupied i ↔ i = ⟨0, by decide⟩ := by
  have hinit : ¬ init_job_list.Occupied i := fun h => h rfl
  rw [oneJob, occupied_added (by simp)]
  simp [hinit]

theorem ready_oneJob : Ready oneJob where
  ok := ok_init.added rfl (by decide) (by simp) (by simp)
  idle := noForeground_init.put (by simp)
  unique i j hi hj _ := (oneJob_occupied.mp hi).trans (oneJob_occupied.mp hj).symm
  int i hi := by
    rw [oneJob_occupied.mp hi]
    decide

/-- `bg %1` -/
theorem all_or_nothing_one : AllOrNothing oneJob true (some [37, 49]) 0 0 := by
  refine (all_or_nothing_iff ready_oneJob true (some [37, 49]) 0 0).mpr (Or.inl ?_)
  exact ⟨_, _, rfl, oneJob_occupied.mpr rfl,
    Or.inl ⟨[49], rfl, by simp, forall_of_all (by decide), by decide⟩⟩

/-- `fg 5`, which is no job: process group 5 is sent `SIGCONT`, and the shell aborts. -/
theorem no_such_process : (builtin_back_fore oneJob false (some [53]) 0 0).killed = [-5] ∧
    (builtin_back_fore oneJob false (some [53]) 0 0).halt = some (.noSuchJob "job_set_state" 0) ∧
    ¬ AllOrNothing oneJob false (some [53]) 0 0 := by
  have hkilled : (builtin_back_fore oneJob false (some [53]) 0 0).killed = [-5] := by decide
  refine ⟨hkilled, by decide, fun h => ?_⟩
  have hnone : ∀ text i, some [53] = some text → ¬ Designates oneJob text i := by
    rintro text i htext ⟨hi, hnamed⟩
    obtain rfl := Option.some.inj htext
    obtain rfl := oneJob_occupied.mp hi
    rcases hnamed with ⟨t, ht, -⟩ | ⟨-, -, hvalue⟩
    · cases ht
    · exact absurd hvalue (by decide)
  rw [(h.2 hnone).2.1] at hkilled
  cases hkilled

/-! ### The command in the shell -/

/-- The steps of the shell from the call on do what the command does. -/
theorem builtin_steps {s : Tsh} {backg : Bool} {arg : Option Bytes} (hnil : s.handlers = [])
    (hpc : s.main = .backFore backg arg) (jid pid : ℤ) :
    ∃ as s', tsh.Run s as s' ∧ s'.list = (builtin_back_fore s.list backg arg jid pid).list ∧
      ∀ e, (builtin_back_fore s.list backg arg jid pid).halt = some e ↔
        s'.main = .ended (.halt e) := by
  rw [builtin_back_fore]
  cases htarget : backForeTarget s.list arg jid pid with
  | error e =>
    refine ⟨[.main], _, .single ⟨hnil, .targetHalts backg arg jid pid e hpc htarget⟩, rfl, ?_⟩
    simp [Tsh.finish]
  | ok target =>
    cases target with
    | refuse why =>
      refine ⟨[.main], _, .single ⟨hnil, .refuse backg arg jid pid why hpc htarget⟩, rfl, ?_⟩
      simp [Tsh.restore]
    | act jid' pid' =>
      have hannounce : announceJob s.list backg jid' =
          (if backg then (s.list.job_get_cmdline jid').map fun line =>
            [Message.announce jid' pid' line] else .ok []).map fun _ => () := by
        cases backg with
        | false => rfl
        | true =>
          rw [announceJob]
          cases s.list.job_get_cmdline jid' with
          | error e => rfl
          | ok line => rfl
      simp only [resumeJob]
      split
      · rename_i e hline
        rw [hline] at hannounce
        refine ⟨[.main], _, .single ⟨hnil,
          .announceHalts backg arg jid pid jid' pid' e hpc htarget hannounce⟩, rfl, ?_⟩
        simp [Tsh.finish]
      · rename_i printed hline
        rw [hline] at hannounce
        have hcont : tsh.step s .main ((s.goto (.resume backg pid')).record (.resumed pid')) :=
          ⟨hnil, .sendCont backg arg jid pid jid' pid' hpc htarget hannounce⟩
        split
        · rename_i e hset
          refine ⟨[.main, .main], _, .cons hcont (.single ⟨hnil,
            .setStateHalts backg pid' e rfl hset⟩), rfl, ?_⟩
          simp [Tsh.finish]
        · rename_i l' hset
          refine ⟨[.main, .main], _, .cons hcont (.single ⟨hnil,
            .setState backg pid' l' rfl hset⟩), rfl, ?_⟩
          cases backg with
          | false => simp [Tsh.setList, Tsh.goto, Tsh.record]
          | true => simp [Tsh.setList, Tsh.goto, Tsh.record]

end Labs.Shell
