import SystemsLabs.Shelllab.JobView
import SystemsLabs.Shelllab.TshSound

/-! @lab shelllab | file:tsh.c | scheme:transition | main result:the job list tracks the children

    The log says which children were forked and not reaped, and for which of them the last word is a
    reported stop. The list says the same, except for what is under way: a child that is forked but
    not added (`Adding`), a report of `waitpid` the handler has not yet acted on (`reaping`), a job
    that was continued but whose state is not yet set. All of these are in blocked sections. -/

namespace Labs.Shell
open Schemes JobList

/-- The child was forked and has not been reaped; `log` is latest first. -/
def Unreaped (pid : ℤ) : List Event → Prop
  | [] => False
  | .forked p :: log => p = pid ∨ Unreaped pid log
  | .reaped p :: log => p ≠ pid ∧ Unreaped pid log
  | _ :: log => Unreaped pid log

/-- The last thing recorded for the child is a reported stop, with no `fg` or `bg` of it since. -/
def StopReported (pid : ℤ) : List Event → Prop
  | [] => False
  | .stopped p :: log => p = pid ∨ StopReported pid log
  | .resumed p :: log => p ≠ pid ∧ StopReported pid log
  | .forked p :: log => p ≠ pid ∧ StopReported pid log
  | _ :: log => StopReported pid log

/-- `eval` has forked the child and not yet added it. -/
def Main.Adding (pc : Main) (pid : ℤ) : Prop := ∃ state cmdline, pc = .forked pid state cmdline

/-- `bg` or `fg` has continued the job and not yet set its state. -/
def Main.Resuming (pc : Main) (pid : ℤ) : Prop := ∃ backg, pc = .resume backg pid

/-- What `waitpid` has reported to the handler on top, which has not yet acted on it. -/
def reaping : List Handler → Option (ℤ × Status)
  | ⟨_, _, _, .reaped pid status⟩ :: _ => some (pid, status)
  | _ => none

structure Tracks (s : Tsh) : Prop where
  children : ∀ pid, (s.children pid).isSome ↔ Unreaped pid s.log
  positive : ∀ pid, Unreaped pid s.log → 0 < pid
  listed : ∀ pid, s.list.Listed pid ↔ (Unreaped pid s.log ∧ ¬ s.main.Adding pid) ∨
    ∃ status, status ≠ .stopped ∧ reaping s.handlers = some (pid, status)
  unique : s.list.Unique
  stops : ∀ pid, s.list.Listed pid → ¬ s.main.Resuming pid →
    (∀ status, reaping s.handlers ≠ some (pid, status)) →
    (s.list.Stopped pid ↔ StopReported pid s.log)
  adding : ∀ pid, s.main.Adding pid → 0 < pid →
    Unreaped pid s.log ∧ ¬ StopReported pid s.log
  resuming : ∀ pid, s.main.Resuming pid → ¬ StopReported pid s.log
  stopping : ∀ pid, reaping s.handlers = some (pid, .stopped) → StopReported pid s.log
  dying : ∀ pid status, status ≠ .stopped → reaping s.handlers = some (pid, status) →
    ¬ Unreaped pid s.log

section Step
variable {s s' : Tsh} {f : Handler} {rest : List Handler} {c : Command}

/-- Only a handler in a blocked section has a report under way. -/
theorem reaping_blocked {hs : List Handler} {r : ℤ × Status} (h : reaping hs = some r) :
    ∃ f rest, hs = f :: rest ∧ f.pc = .reaped r.1 r.2 := by
  unfold reaping at h
  split at h
  · cases h
    exact ⟨_, _, rfl, rfl⟩
  · cases h

theorem reaping_top (hf : s.handlers = f :: rest) {pid : ℤ} {status : Status}
    (h : f.pc = .reaped pid status) : reaping s.handlers = some (pid, status) := by
  obtain ⟨sig, saved, prev, pc⟩ := f
  subst h
  rw [hf]
  rfl

theorem reaping_none (hf : s.handlers = f :: rest) {pc : HandlerPc} (h : f.pc = pc)
    (hne : ∀ pid status, pc ≠ .reaped pid status) : reaping s.handlers = none := by
  cases hr : reaping s.handlers with
  | none => rfl
  | some r =>
    obtain ⟨g, rest', hg, hpc⟩ := reaping_blocked hr
    obtain ⟨rfl, -⟩ := List.cons.inj (hf.symm.trans hg)
    exact absurd (h.symm.trans hpc) (hne _ _)

/-- The frame below is not in a blocked section, so it has no report under way. -/
theorem Ctl.reaping_rest (hs : Ctl s) (hf : s.handlers = f :: rest) : reaping rest = none := by
  cases hr : reaping rest with
  | none => rfl
  | some r =>
    obtain ⟨g, rest', rfl, hg⟩ := reaping_blocked hr
    exact absurd (hg ▸ trivial) (hs.rest f _ hf g List.mem_cons_self)

/-- A signal is delivered over a frame that is not in a blocked section. -/
theorem Ctl.reaping_deliver (hs : Ctl s) {sig : Signal} (hsig : sig ∈ blockMask)
    (hmask : sig ∉ s.mask) : reaping s.handlers = none := by
  cases hr : reaping s.handlers with
  | none => rfl
  | some r =>
    obtain ⟨f, rest, hf, hpc⟩ := reaping_blocked hr
    exact absurd (hs.top f rest hf (hpc ▸ trivial) hsig) hmask

/-- Where neither list, children nor log change, and nothing new is under way. -/
theorem Tracks.quiet (ht : Tracks s) (hlist : s'.list = s.list)
    (hchildren : ∀ pid, (s'.children pid).isSome = (s.children pid).isSome) (hlog : s'.log = s.log)
    (hadding : ∀ pid, s'.main.Adding pid ↔ s.main.Adding pid)
    (hresuming : ∀ pid, s'.main.Resuming pid ↔ s.main.Resuming pid)
    (hreaping : reaping s'.handlers = reaping s.handlers) : Tracks s' where
  children pid := by rw [hchildren, hlog]; exact ht.children pid
  positive pid := by rw [hlog]; exact ht.positive pid
  listed pid := by rw [hlist, hlog, hadding, hreaping]; exact ht.listed pid
  unique := by rw [hlist]; exact ht.unique
  stops pid := by rw [hlist, hlog, hresuming, hreaping]; exact ht.stops pid
  adding pid := by rw [hlog, hadding]; exact ht.adding pid
  resuming pid := by rw [hlog, hresuming]; exact ht.resuming pid
  stopping pid := by rw [hlog, hreaping]; exact ht.stopping pid
  dying pid status := by rw [hlog, hreaping]; exact ht.dying pid status

/-- A `pc` at which no child is being added and no job resumed. -/
def Main.Plain (pc : Main) : Prop := (∀ pid, ¬ pc.Adding pid) ∧ ∀ pid, ¬ pc.Resuming pid

theorem Tracks.plain (ht : Tracks s) (hpc : s.main.Plain) (hpc' : s'.main.Plain)
    (hlist : s'.list = s.list) (hchildren : s'.children = s.children) (hlog : s'.log = s.log)
    (hreaping : reaping s'.handlers = reaping s.handlers) : Tracks s' :=
  ht.quiet hlist (fun _ => by rw [hchildren]) hlog
    (fun pid => iff_of_false (hpc'.1 pid) (hpc.1 pid))
    (fun pid => iff_of_false (hpc'.2 pid) (hpc.2 pid)) hreaping

theorem Main.plain_of {pc : Main} (hfork : ∀ pid state cmdline, pc ≠ .forked pid state cmdline)
    (hresume : ∀ backg pid, pc ≠ .resume backg pid) : pc.Plain :=
  ⟨fun pid ⟨state, cmdline, h⟩ => hfork pid state cmdline h,
    fun pid ⟨backg, h⟩ => hresume backg pid h⟩

theorem Main.plain_added {state : JobState} {pid : ℤ} :
    (if state = .BG then Main.announce pid else .waitTest).Plain := by
  split
  · exact Main.plain_of nofun nofun
  · exact Main.plain_of nofun nofun

theorem Main.plain_of_open {pc : Main} (h : ¬ pc.Blocked) : pc.Plain := by
  refine Main.plain_of ?_ ?_
  · rintro pid state cmdline rfl
    exact h trivial
  · rintro backg pid rfl
    exact h trivial

theorem Main.Plain.wake {pc : Main} (h : pc.Plain) : pc.wake.Plain := by
  cases pc with
  | suspended old woken => exact Main.plain_of nofun nofun
  | _ => exact h

theorem Tracks.command (ht : Tracks s) (hnil : s.handlers = []) (hpc : s.main = .prompt)
    (h : CommandStep s c s') : Tracks s' := by
  have hplain : s.main.Plain := by
    rw [hpc]
    exact Main.plain_of nofun nofun
  cases h with
  | nothing => exact ht
  | openFails => exact ht
  | quit => exact ht.plain hplain (Main.plain_of nofun nofun) rfl rfl rfl (by rw [hnil]; rfl)
  | _ => exact ht.plain hplain (Main.plain_of nofun nofun) rfl rfl rfl rfl

/-! ### Launching -/

theorem Main.adding_forked {pid p : ℤ} {state : JobState} {cmdline : Bytes} :
    (Main.forked pid state cmdline).Adding p ↔ p = pid := by
  simp [Main.Adding, eq_comm]

theorem Main.not_resuming_forked {pid p : ℤ} {state : JobState} {cmdline : Bytes} :
    ¬ (Main.forked pid state cmdline).Resuming p := by
  rintro ⟨backg, h⟩
  cases h

theorem Tracks.forked (ht : Tracks s) (hnil : s.handlers = []) {state : JobState} {cmdline : Bytes}
    {pid : ℤ} (h : s.main = .fork state cmdline) (hpid : 0 < pid) (hfree : s.children pid = none) :
    Tracks (((s.goto (.forked pid state cmdline)).setChild pid (some .running)).record
      (.forked pid)) := by
  have hnew : ¬ Unreaped pid s.log := by
    rw [← ht.children, hfree]
    exact nofun
  have hnone : reaping s.handlers = none := by
    rw [hnil]
    rfl
  have hplain : s.main.Plain := by
    rw [h]
    exact Main.plain_of nofun nofun
  have hlisted : ∀ p, s.list.Listed p ↔ Unreaped p s.log := by
    intro p
    rw [ht.listed, hnone]
    simp [hplain.1 p]
  refine ⟨?_, ?_, ?_, ht.unique, ?_, ?_, ?_, ?_, ?_⟩
  · intro p
    change (Function.update s.children pid (some .running) p).isSome ↔ pid = p ∨ Unreaped p s.log
    rcases eq_or_ne p pid with rfl | hne
    · simp
    · simp [hne, hne.symm, ht.children]
  · rintro p (rfl | hp)
    · exact hpid
    · exact ht.positive p hp
  · intro p
    change s.list.Listed p ↔ ((pid = p ∨ Unreaped p s.log) ∧
      ¬ (Main.forked pid state cmdline).Adding p) ∨ ∃ status, status ≠ .stopped ∧
      reaping s.handlers = some (p, status)
    rw [Main.adding_forked, hlisted, hnone]
    rcases eq_or_ne p pid with rfl | hne
    · simp [hnew]
    · simp [hne, hne.symm]
  · intro p hp _ _
    change s.list.Stopped p ↔ pid ≠ p ∧ StopReported p s.log
    have hne : pid ≠ p := by
      rintro rfl
      exact hnew ((hlisted pid).mp hp)
    rw [ht.stops p hp (hplain.2 p) (by rw [hnone]; exact nofun)]
    simp [hne]
  · intro p hp _
    obtain rfl := Main.adding_forked.mp hp
    exact ⟨Or.inl rfl, fun hstop => hstop.1 rfl⟩
  · intro p hp
    exact absurd hp Main.not_resuming_forked
  · intro p hp
    exact absurd (hnone.symm.trans hp) nofun
  · intro p status _ hp
    exact absurd (hnone.symm.trans hp) nofun

theorem Tracks.forkFailed (ht : Tracks s) {state : JobState} {cmdline : Bytes}
    (h : s.main = .fork state cmdline) : Tracks (s.goto (.forked (-1) state cmdline)) := by
  have hplain : s.main.Plain := by
    rw [h]
    exact Main.plain_of nofun nofun
  refine ⟨ht.children, ht.positive, ?_, ht.unique, ?_, ?_, ?_, ht.stopping, ht.dying⟩
  · intro p
    change s.list.Listed p ↔
      (Unreaped p s.log ∧ ¬ (Main.forked (-1) state cmdline).Adding p) ∨ _
    rw [Main.adding_forked, ht.listed]
    refine or_congr_left (and_congr_right fun hp => iff_of_true (hplain.1 p) ?_)
    have := ht.positive p hp
    omega
  · intro p hp _ hr
    exact ht.stops p hp (hplain.2 p) hr
  · intro p hp hpos
    obtain rfl := Main.adding_forked.mp hp
    omega
  · intro p hp
    exact absurd hp Main.not_resuming_forked

/-- `add_job` lists the child that was forked. -/
theorem Tracks.added (ht : Tracks s) (hnil : s.handlers = []) {state : JobState} {cmdline : Bytes}
    {pid jid : ℤ} {i : Fin MAXJOBS} {pc : Main} (h : s.main = .forked pid state cmdline)
    (hpid : 0 < pid) (hstate : state = .FG ∨ state = .BG) (hfree : ¬ s.list.Occupied i)
    (hpc : pc.Plain) :
    Tracks (((s.goto pc).setList (s.list.added i pid state cmdline)).record (.added pid jid)) := by
  have hnone : reaping s.handlers = none := by
    rw [hnil]
    rfl
  have hundef : state ≠ .UNDEF := by
    rcases hstate with rfl | rfl <;> exact nofun
  have hst : state ≠ .ST := by
    rcases hstate with rfl | rfl <;> exact nofun
  have hold : ∀ p, s.list.Listed p ↔ Unreaped p s.log ∧ p ≠ pid := by
    intro p
    rw [ht.listed, hnone, h, Main.adding_forked]
    simp
  obtain ⟨hlive, hstop⟩ := ht.adding pid (h ▸ Main.adding_forked.mpr rfl) hpid
  have hfresh : ¬ s.list.Listed pid := fun hp => ((hold pid).mp hp).2 rfl
  refine ⟨ht.children, ht.positive, ?_, ht.unique.added hfresh hundef, ?_, ?_, ?_, ?_, ?_⟩
  · intro p
    change (s.list.added i pid state cmdline).Listed p ↔ (Unreaped p s.log ∧ ¬ pc.Adding p) ∨
      ∃ status, status ≠ .stopped ∧ reaping s.handlers = some (p, status)
    rw [listed_added hfree hundef, hold, hnone]
    rcases eq_or_ne p pid with rfl | hp
    · simp [hlive, hpc.1]
    · simp [hp, hpc.1]
  · intro p hp _ _
    change (s.list.added i pid state cmdline).Stopped p ↔ StopReported p s.log
    rw [stopped_added hfree hst]
    rcases (listed_added hfree hundef).mp hp with rfl | hp
    · exact iff_of_false (fun hs => hfresh hs.listed) hstop
    · exact ht.stops p hp (h ▸ Main.not_resuming_forked) (by rw [hnone]; exact nofun)
  · intro p hp
    exact absurd hp (hpc.1 p)
  · intro p hp
    exact absurd hp (hpc.2 p)
  · intro p hp
    exact absurd (hnone.symm.trans hp) nofun
  · intro p status _ hp
    exact absurd (hnone.symm.trans hp) nofun

/-! ### `bg` and `fg` -/

theorem Main.resuming_resume {backg : Bool} {pid p : ℤ} :
    (Main.resume backg pid).Resuming p ↔ p = pid := by
  simp [Main.Resuming, eq_comm]

theorem Main.not_adding_resume {backg : Bool} {pid p : ℤ} : ¬ (Main.resume backg pid).Adding p := by
  rintro ⟨state, cmdline, h⟩
  cases h

theorem Tracks.resumed (ht : Tracks s) (hnil : s.handlers = []) (hpc : s.main.Plain) {backg : Bool}
    {pid : ℤ} : Tracks ((s.goto (.resume backg pid)).record (.resumed pid)) := by
  have hnone : reaping s.handlers = none := by
    rw [hnil]
    rfl
  refine ⟨ht.children, ht.positive, ?_, ht.unique, ?_, ?_, ?_, ?_, ht.dying⟩
  · intro p
    change s.list.Listed p ↔ (Unreaped p s.log ∧ ¬ (Main.resume backg pid).Adding p) ∨ _
    rw [ht.listed]
    exact or_congr_left (and_congr_right fun _ =>
      iff_of_true (hpc.1 p) Main.not_adding_resume)
  · intro p hp hres hr
    change s.list.Stopped p ↔ pid ≠ p ∧ StopReported p s.log
    have hne : pid ≠ p := fun heq => hres (Main.resuming_resume.mpr heq.symm)
    rw [ht.stops p hp (hpc.2 p) hr]
    simp [hne]
  · intro p hp
    exact absurd hp Main.not_adding_resume
  · intro p hp
    obtain rfl := Main.resuming_resume.mp hp
    exact fun hstop => hstop.1 rfl
  · intro p hp
    exact absurd (hnone.symm.trans hp) nofun

/-- The state of the job that `bg` or `fg` continued is set. -/
theorem Tracks.stateSet (ht : Tracks s) (hnil : s.handlers = []) {backg : Bool} {i : Fin MAXJOBS}
    {state : JobState} {pc : Main} (h : s.main = .resume backg (s.list.job_list i).pid)
    (hi : s.list.Occupied i) (hundef : state ≠ .UNDEF) (hst : state ≠ .ST) (hpc : pc.Plain) :
    Tracks ((s.goto pc).setList (s.list.setState i state)) := by
  have hnone : reaping s.handlers = none := by
    rw [hnil]
    rfl
  refine ⟨ht.children, ht.positive, ?_, ht.unique.setState hi hundef, ?_, ?_, ?_, ht.stopping,
    ht.dying⟩
  · intro p
    change (s.list.setState i state).Listed p ↔ (Unreaped p s.log ∧ ¬ pc.Adding p) ∨ _
    rw [listed_setState hi hundef, ht.listed]
    exact or_congr_left (and_congr_right fun _ =>
      iff_of_true (h ▸ Main.not_adding_resume) (hpc.1 p))
  · intro p hp _ hr
    change (s.list.setState i state).Stopped p ↔ StopReported p s.log
    rcases eq_or_ne p (s.list.job_list i).pid with rfl | hne
    · rw [stopped_setState_self ht.unique hi hundef]
      exact iff_of_false hst (ht.resuming _ (h ▸ Main.resuming_resume.mpr rfl))
    · rw [stopped_setState_of_ne hne]
      exact ht.stops p ((listed_setState hi hundef).mp hp)
        (fun hres => hne (Main.resuming_resume.mp (h ▸ hres))) hr
  · intro p hp
    exact absurd hp (hpc.1 p)
  · intro p hp
    exact absurd hp (hpc.2 p)

/-! ### The handler -/

/-- `waitpid` reaps a child: the list still has it. -/
theorem Tracks.reaped (ht : Tracks s) (hpc : s.main.Plain) (hnone : reaping s.handlers = none)
    {pid : ℤ} {killed : Bool} {status : Status} (hchild : s.children pid = some (.zombie killed))
    (hstatus : status ≠ .stopped) :
    Tracks (((s.handle f rest (.reaped pid status)).setChild pid none).record (.reaped pid)) := by
  have hlive : Unreaped pid s.log := by
    rw [← ht.children, hchild]
    rfl
  have hlisted : ∀ p, s.list.Listed p ↔ Unreaped p s.log := by
    intro p
    rw [ht.listed, hnone]
    simp [hpc.1 p]
  refine ⟨?_, ?_, ?_, ht.unique, ?_, ?_, ?_, ?_, ?_⟩
  · intro p
    change (Function.update s.children pid none p).isSome ↔ pid ≠ p ∧ Unreaped p s.log
    rcases eq_or_ne p pid with rfl | hne
    · simp
    · simp [hne, hne.symm, ht.children]
  · intro p hp
    exact ht.positive p hp.2
  · intro p
    change s.list.Listed p ↔ ((pid ≠ p ∧ Unreaped p s.log) ∧ ¬ s.main.Adding p) ∨
      ∃ status' : Status, status' ≠ .stopped ∧ some (pid, status) = some (p, status')
    rw [hlisted]
    rcases eq_or_ne p pid with rfl | hne
    · exact iff_of_true hlive (Or.inr ⟨_, hstatus, rfl⟩)
    · simp [hne.symm, hpc.1 p]
  · intro p hp _ hr
    exact ht.stops p hp (hpc.2 p) (by rw [hnone]; exact nofun)
  · intro p hp
    exact absurd hp (hpc.1 p)
  · intro p hp
    exact absurd hp (hpc.2 p)
  · intro p hp
    cases hp
    exact absurd rfl hstatus
  · intro p status _ hp
    cases hp
    exact fun hlive => hlive.1 rfl

/-- `waitpid` reports a stop: the list does not know yet. -/
theorem Tracks.stopNoted (ht : Tracks s) (hpc : s.main.Plain) (hnone : reaping s.handlers = none)
    {pid : ℤ} (hchild : s.children pid = some (.stopped false)) :
    Tracks (((s.handle f rest (.reaped pid .stopped)).setChild pid
      (some (.stopped true))).record (.stopped pid)) := by
  refine ⟨?_, ht.positive, ?_, ht.unique, ?_, ?_, ?_, ?_, ?_⟩
  · intro p
    change (Function.update s.children pid (some (.stopped true)) p).isSome ↔ Unreaped p s.log
    rw [← ht.children]
    rcases eq_or_ne p pid with rfl | hne
    · simp [hchild]
    · simp [hne]
  · intro p
    change s.list.Listed p ↔ (Unreaped p s.log ∧ ¬ s.main.Adding p) ∨
      ∃ status, status ≠ .stopped ∧ some (pid, Status.stopped) = some (p, status)
    rw [ht.listed, hnone]
    refine or_congr_right (iff_of_false (by simp) ?_)
    rintro ⟨status, hne, heq⟩
    cases heq
    exact hne rfl
  · intro p hp _ hr
    change s.list.Stopped p ↔ pid = p ∨ StopReported p s.log
    have hne : pid ≠ p := by
      rintro rfl
      exact hr .stopped rfl
    rw [ht.stops p hp (hpc.2 p) (by rw [hnone]; exact nofun)]
    simp [hne]
  · intro p hp
    exact absurd hp (hpc.1 p)
  · intro p hp
    exact absurd hp (hpc.2 p)
  · intro p hp
    cases hp
    exact Or.inl rfl
  · intro p status hne hp
    cases hp
    exact absurd rfl hne

/-- The handler deletes the job it reaped. -/
theorem Tracks.deleted (ht : Tracks s) (hpc : s.main.Plain) {i : Fin MAXJOBS} {status : Status}
    (hi : s.list.Occupied i) (hstatus : status ≠ .stopped)
    (hr : reaping s.handlers = some ((s.list.job_list i).pid, status)) :
    Tracks ((s.handle f rest .waiting).setList (s.list.deleted i)) := by
  have hdead := ht.dying _ status hstatus hr
  refine ⟨ht.children, ht.positive, ?_, ht.unique.deleted, ?_, ?_, ?_, nofun, nofun⟩
  · intro p
    change (s.list.deleted i).Listed p ↔ (Unreaped p s.log ∧ ¬ s.main.Adding p) ∨
      ∃ status : Status, status ≠ .stopped ∧ none = some (p, status)
    rw [listed_deleted ht.unique hi, ht.listed, hr]
    rcases eq_or_ne p (s.list.job_list i).pid with rfl | hne
    · simp [hdead]
    · simp [hne, hne.symm]
  · intro p hp _ _
    obtain ⟨hne, hp⟩ := (listed_deleted ht.unique hi).mp hp
    change (s.list.deleted i).Stopped p ↔ StopReported p s.log
    rw [stopped_deleted hne]
    refine ht.stops p hp (hpc.2 p) ?_
    intro status' heq
    rw [hr] at heq
    cases heq
    exact hne rfl
  · intro p hp
    exact absurd hp (hpc.1 p)
  · intro p hp
    exact absurd hp (hpc.2 p)

/-- The handler marks the job whose stop was reported. -/
theorem Tracks.marked (ht : Tracks s) (hpc : s.main.Plain) {i : Fin MAXJOBS}
    (hi : s.list.Occupied i)
    (hr : reaping s.handlers = some ((s.list.job_list i).pid, .stopped)) :
    Tracks ((s.handle f rest .waiting).setList (s.list.setState i .ST)) := by
  have hundef : JobState.ST ≠ .UNDEF := nofun
  refine ⟨ht.children, ht.positive, ?_, ht.unique.setState hi hundef, ?_, ?_, ?_, nofun, nofun⟩
  · intro p
    change (s.list.setState i .ST).Listed p ↔ (Unreaped p s.log ∧ ¬ s.main.Adding p) ∨
      ∃ status : Status, status ≠ .stopped ∧ none = some (p, status)
    rw [listed_setState hi hundef, ht.listed, hr]
    refine or_congr_right (iff_of_false ?_ (by simp))
    rintro ⟨status, hne, heq⟩
    cases heq
    exact hne rfl
  · intro p hp _ _
    change (s.list.setState i .ST).Stopped p ↔ StopReported p s.log
    rcases eq_or_ne p (s.list.job_list i).pid with rfl | hne
    · rw [stopped_setState_self ht.unique hi hundef]
      exact iff_of_true rfl (ht.stopping _ hr)
    · rw [stopped_setState_of_ne hne]
      refine ht.stops p ((listed_setState hi hundef).mp hp) (hpc.2 p) ?_
      intro status' heq
      rw [hr] at heq
      cases heq
      exact hne rfl
  · intro p hp
    exact absurd hp (hpc.1 p)
  · intro p hp
    exact absurd hp (hpc.2 p)

/-! ### Every run -/

/-- The shell has ended, or some job did not fit into the table, or the list tracks the children. -/
def TracksOrGone (s : Tsh) : Prop :=
  (∃ why, s.main = .ended why) ∨ (∃ pid, Event.added pid 0 ∈ s.log) ∨ Tracks s

theorem TracksOrGone.of (ht : Tracks s) : TracksOrGone s := Or.inr (Or.inr ht)

theorem Tracks.mainStep (ht : Tracks s) (hs : Sound s) (hnil : s.handlers = [])
    (h : MainStep s s') : TracksOrGone s' := by
  cases h with
  | forkOk state cmdline pid h hpid hfree => exact .of (ht.forked hnil h hpid hfree)
  | forkFails state cmdline h => exact .of (ht.forkFailed h)
  | addJob state cmdline pid alloc l' jid h hadd =>
    obtain ⟨hpid, ⟨rfl, rfl⟩ | ⟨i, -, hfree, rfl, rfl⟩⟩ := hs.addJob_inv h hadd
    · exact Or.inr (Or.inl ⟨pid, List.mem_cons_self⟩)
    · exact .of (ht.added hnil h hpid (hs.launch state (h ▸ rfl)) hfree Main.plain_added)
  | sendCont backg arg jid₀ pid₀ jid pid h =>
    exact .of (ht.resumed hnil (h ▸ Main.plain_of nofun nofun))
  | setState backg pid l' h hset =>
    rcases hs.setState_inv h with heq | ⟨i, hocc, rfl, heq⟩
    · rw [heq] at hset
      cases hset
    · rw [heq] at hset
      cases hset
      cases backg with
      | true => exact .of (ht.stateSet hnil h hocc nofun nofun (Main.plain_of nofun nofun))
      | false => exact .of (ht.stateSet hnil h hocc nofun nofun (Main.plain_of nofun nofun))
  | unblock close h =>
    cases close with
    | true => exact .of (ht.plain (h ▸ Main.plain_of nofun nofun) (Main.plain_of nofun nofun)
        rfl rfl rfl rfl)
    | false => exact .of (ht.plain (h ▸ Main.plain_of nofun nofun) (Main.plain_of nofun nofun)
        rfl rfl rfl rfl)
  | announce pid h =>
    exact .of (ht.plain (h ▸ Main.plain_of nofun nofun) (Main.plain_of nofun nofun) rfl rfl rfl rfl)
  | suspend h =>
    exact .of (ht.plain (h ▸ Main.plain_of nofun nofun) (Main.plain_of nofun nofun) rfl rfl rfl rfl)
  | wake old h =>
    exact .of (ht.plain (h ▸ Main.plain_of nofun nofun) (Main.plain_of nofun nofun) rfl rfl rfl rfl)
  | waited h =>
    exact .of (ht.plain (h ▸ Main.plain_of nofun nofun) (Main.plain_of nofun nofun) rfl rfl rfl rfl)
  | refuse backg arg jid pid why h =>
    exact .of (ht.plain (h ▸ Main.plain_of nofun nofun) (Main.plain_of nofun nofun) rfl rfl rfl rfl)
  | again h =>
    exact .of (ht.plain (h ▸ Main.plain_of nofun nofun) (Main.plain_of nofun nofun) rfl rfl rfl rfl)
  | listed close h =>
    exact .of (ht.plain (h ▸ Main.plain_of nofun nofun) (Main.plain_of nofun nofun) rfl rfl rfl rfl)
  | closed h =>
    exact .of (ht.plain (h ▸ Main.plain_of nofun nofun) (Main.plain_of nofun nofun) rfl rfl rfl rfl)
  | addJobHalts | targetHalts | announceHalts | setStateHalts | closeFails => exact Or.inl ⟨_, rfl⟩

theorem Tracks.handlerStep (ht : Tracks s) (hs : Sound s) (hf : s.handlers = f :: rest)
    (h : HandlerStep s f rest s') : TracksOrGone s' := by
  have hpc : s.main.Plain := Main.plain_of_open (hs.open_main hf)
  cases h with
  | block h =>
    refine .of (ht.plain hpc hpc rfl rfl rfl ?_)
    rw [reaping_none hf h nofun]
    cases f.sig with
    | _ => rfl
  | reap pid killed h hchild =>
    refine .of (ht.reaped hpc (reaping_none hf h nofun) hchild ?_)
    cases killed with
    | true => exact nofun
    | false => exact nofun
  | reportStop pid h hchild => exact .of (ht.stopNoted hpc (reaping_none hf h nofun) hchild)
  | drained h => exact .of (ht.plain hpc hpc rfl rfl rfl (reaping_none hf h nofun).symm)
  | deleteJob pid status l' found h hstatus hdel =>
    have hreaping := reaping_top hf h
    rcases delete_job_pid hs.ok pid with ⟨-, hnone⟩ | ⟨i, hocc, rfl, heq⟩
    · obtain ⟨i, hi, hpid⟩ := (ht.listed pid).mpr (Or.inr ⟨status, hstatus, hreaping⟩)
      exact absurd hpid (hnone i hi)
    · rw [heq] at hdel
      cases hdel
      exact .of (ht.deleted hpc hocc hstatus hreaping)
  | markStopped pid l' h hset =>
    have hreaping := reaping_top hf h
    rcases @job_set_state_pid _ hs.ok pid .ST nofun nofun with ⟨heq, -⟩ | ⟨i, hocc, rfl, heq⟩
    · rw [heq] at hset
      cases hset
    · rw [heq] at hset
      cases hset
      exact .of (ht.marked hpc hocc hreaping)
  | forward h => exact .of (ht.plain hpc hpc rfl rfl rfl (reaping_none hf h nofun).symm)
  | unblock h => exact .of (ht.plain hpc hpc rfl rfl rfl (reaping_none hf h nofun).symm)
  | ret h =>
    have hpc' : (if rest = [] then s.main.wake else s.main).Plain := by
      split
      · exact hpc.wake
      · exact hpc
    refine .of (ht.plain hpc hpc' rfl rfl rfl ?_)
    rw [reaping_none hf h nofun]
    exact hs.reaping_rest hf
  | deleteHalts | markHalts | forwardHalts => exact Or.inl ⟨_, rfl⟩

theorem Tracks.world (ht : Tracks s) (hs : Sound s) (h : WorldStep s s') : TracksOrGone s' := by
  cases h with
  | fatal => exact Or.inl ⟨_, rfl⟩
  | change pid c c' hchild =>
    refine .of (ht.quiet rfl ?_ rfl (fun _ => Iff.rfl) (fun _ => Iff.rfl) rfl)
    intro p
    change (Function.update s.children pid (some c') p).isSome = (s.children p).isSome
    rcases eq_or_ne p pid with rfl | hne
    · simp [hchild]
    · simp [hne]
  | arrive sig =>
    exact .of (ht.quiet rfl (fun _ => rfl) rfl (fun _ => Iff.rfl) (fun _ => Iff.rfl) rfl)
  | deliver sig hsig hpending hmask hrun =>
    refine .of (ht.quiet rfl (fun _ => rfl) rfl (fun _ => Iff.rfl) (fun _ => Iff.rfl) ?_)
    exact (hs.reaping_deliver hsig hmask).symm

theorem log_step {a : Label} (h : s.Step a s') : s'.log = s.log ∨ ∃ e, s'.log = e :: s.log := by
  cases a with
  | command c =>
    obtain ⟨-, -, h⟩ := h
    cases h with
    | _ => exact Or.inl rfl
  | main =>
    obtain ⟨-, h⟩ := h
    cases h with
    | forkOk | addJob | sendCont => exact Or.inr ⟨_, rfl⟩
    | _ => exact Or.inl rfl
  | handler =>
    obtain ⟨f, rest, -, h⟩ := h
    cases h with
    | reap | reportStop => exact Or.inr ⟨_, rfl⟩
    | _ => exact Or.inl rfl
  | world =>
    cases h with
    | _ => exact Or.inl rfl

/-- The end is final. -/
theorem ended_step {a : Label} {why : Ended} (hend : s.main = .ended why) (h : s.Step a s') :
    ∃ why, s'.main = .ended why := by
  cases a with
  | command c =>
    cases hend.symm.trans h.1
  | main =>
    obtain ⟨-, h⟩ := h
    cases h with
    | _ => simp_all
  | handler =>
    obtain ⟨f, rest, -, h⟩ := h
    cases h with
    | ret h =>
      refine ⟨why, ?_⟩
      change (if rest = [] then s.main.wake else s.main) = _
      rw [hend]
      exact ite_self _
    | deleteHalts | markHalts | forwardHalts => exact ⟨_, rfl⟩
    | _ => exact ⟨why, hend⟩
  | world =>
    cases h with
    | fatal => exact ⟨_, rfl⟩
    | _ => exact ⟨why, hend⟩

theorem TracksOrGone.step {a : Label} (ht : TracksOrGone s) (hs : Sound s) (h : s.Step a s') :
    TracksOrGone s' := by
  rcases ht with ⟨why, hend⟩ | ⟨pid, hfull⟩ | ht
  · exact Or.inl (ended_step hend h)
  · refine Or.inr (Or.inl ⟨pid, ?_⟩)
    rcases log_step h with hlog | ⟨e, hlog⟩
    · rwa [hlog]
    · rw [hlog]
      exact List.mem_cons_of_mem e hfull
  · cases a with
    | command c => exact .of (ht.command h.2.1 h.1 h.2.2)
    | main => exact ht.mainStep hs h.1 h.2
    | handler =>
      obtain ⟨f, rest, hf, h⟩ := h
      exact ht.handlerStep hs hf h
    | world => exact ht.world hs h

theorem tracks_init (h : tsh.init s) : Tracks s := by
  obtain ⟨hlist, hmain, hnil, hchildren, hlog⟩ := h
  have hempty : ∀ i, ¬ s.list.Occupied i := by
    rw [hlist]
    exact fun i hi => hi rfl
  have hplain : s.main.Plain := hmain ▸ Main.plain_of nofun nofun
  refine ⟨?_, ?_, ?_, ?_, ?_, ?_, ?_, ?_, ?_⟩
  · intro pid
    rw [hchildren, hlog]
    exact iff_of_false nofun id
  · rw [hlog]
    exact nofun
  · intro pid
    rw [hlog, hnil]
    refine iff_of_false ?_ ?_
    · rintro ⟨i, hi, -⟩
      exact hempty i hi
    · rintro (⟨hf, -⟩ | ⟨status, -, hr⟩)
      · exact hf
      · cases hr
  · intro i j hi
    exact absurd hi (hempty i)
  · rintro pid ⟨i, hi, -⟩
    exact absurd hi (hempty i)
  · intro pid hp
    exact absurd hp (hplain.1 pid)
  · intro pid hp
    exact absurd hp (hplain.2 pid)
  · rw [hnil]
    exact nofun
  · rw [hnil]
    exact nofun

theorem tracks_reachable (h : tsh.Reachable s) : TracksOrGone s := by
  have hboth : Sound s ∧ TracksOrGone s := by
    refine System.reachable_of_step (P := fun s => Sound s ∧ TracksOrGone s) ?_ ?_ h
    · intro s hinit
      exact ⟨sound_init hinit, .of (tracks_init hinit)⟩
    · rintro s a s' ⟨hs, ht⟩ hstep
      exact ⟨hs.step hstep, ht.step hs hstep⟩
  exact hboth.2

/-- The shell, or a handler of it, is in a blocked section. -/
def Tsh.Blocked (s : Tsh) : Prop := s.main.Blocked ∨ ∃ f ∈ s.handlers, f.pc.Blocked

/-- Outside of blocked sections the list holds exactly the children that were forked and not reaped,
    each once, and as stopped exactly those whose last word is a reported stop. -/
theorem list_tracks_children (h : tsh.Reachable s) (hrun : ∀ why, s.main ≠ .ended why)
    (hadded : ∀ pid, Event.added pid 0 ∉ s.log) (hopen : ¬ s.Blocked) :
    (∀ i j, s.list.state i ≠ .UNDEF → s.list.state j ≠ .UNDEF →
      (s.list.job_list i).pid = (s.list.job_list j).pid → i = j) ∧
    (∀ pid, (∃ i, s.list.state i ≠ .UNDEF ∧ (s.list.job_list i).pid = pid) ↔
      Unreaped pid s.log) ∧
    (∀ pid, (s.children pid).isSome ↔ Unreaped pid s.log) ∧
    ∀ i, s.list.state i ≠ .UNDEF →
      (s.list.state i = .ST ↔ StopReported (s.list.job_list i).pid s.log) := by
  rcases tracks_reachable h with ⟨why, hend⟩ | ⟨pid, hfull⟩ | ht
  · exact absurd hend (hrun why)
  · exact absurd hfull (hadded pid)
  · have hmain : ¬ s.main.Blocked := fun hb => hopen (Or.inl hb)
    have hpc : s.main.Plain := by
      refine Main.plain_of ?_ ?_
      · intro pid state cmdline heq
        exact hmain (heq ▸ trivial)
      · intro backg pid heq
        exact hmain (heq ▸ trivial)
    have hnone : reaping s.handlers = none := by
      cases hr : reaping s.handlers with
      | none => rfl
      | some r =>
        obtain ⟨f, rest, hf, hb⟩ := reaping_blocked hr
        exact absurd (Or.inr ⟨f, hf ▸ List.mem_cons_self, hb ▸ trivial⟩) hopen
    refine ⟨ht.unique, ?_, ht.children, ?_⟩
    · intro pid
      refine (ht.listed pid).trans ?_
      rw [hnone]
      simp [hpc.1 pid]
    · intro i hi
      rw [← stopped_iff ht.unique hi]
      exact ht.stops _ ⟨i, hi, rfl⟩ (hpc.2 _) (by rw [hnone]; exact nofun)

end Step

theorem list_tracks_children_waiting :
    (∃ i, waiting.list.state i ≠ .UNDEF ∧ (waiting.list.job_list i).pid = 100) ↔
      Unreaped 100 waiting.log := by
  have hopen : ¬ waiting.Blocked := by
    rintro (hb | ⟨f, hf, -⟩)
    · exact hb
    · cases hf
  have hadded : ∀ pid, Event.added pid 0 ∉ waiting.log := by
    intro pid hmem
    rcases List.mem_pair.mp hmem with heq | heq
    · cases heq
    · cases heq
  exact (list_tracks_children waiting_reachable nofun hadded hopen).2.1 100

end Labs.Shell
