import SystemsLabs.Shelllab.JobTable
import SystemsLabs.Shelllab.Tsh

/-! @lab shelllab | file:tsh.c | scheme:transition | main result:the job list is sound in every state

    Two layers. `Ctl`: a blocked section has the mask, so only the frame on top can be in one.
    `Sound`: the table invariant, and a foreground job only where `eval` or `fg` waits for it. A halt
    of the shell is one of the few a sound list allows. -/

namespace Labs.Shell
open Schemes JobList

/-! ### Blocked sections -/

def Main.Blocked : Main → Prop
  | .prompt | .suspended _ _ | .again | .closing | .ended _ => False
  | _ => True

def HandlerPc.Blocked : HandlerPc → Prop
  | .entered | .left => False
  | _ => True

/-- Only the frame on top can be in a blocked section, and then the mask is in force. -/
structure Ctl (s : Tsh) : Prop where
  main : s.main.Blocked → s.handlers = [] ∧ blockMask ⊆ s.mask
  top : ∀ f rest, s.handlers = f :: rest → f.pc.Blocked → blockMask ⊆ s.mask
  rest : ∀ f rest, s.handlers = f :: rest → ∀ g ∈ rest, ¬ g.pc.Blocked
  suspended : ∀ old woken, s.main = .suspended old woken → blockMask ⊆ old

section Control
variable {s s' : Tsh} {f : Handler} {rest : List Handler} {c : Command}

theorem Ctl.of_nil (hnil : s.handlers = []) (hmain : s.main.Blocked → blockMask ⊆ s.mask)
    (hsusp : ∀ old woken, s.main = .suspended old woken → blockMask ⊆ old) : Ctl s where
  main h := ⟨hnil, hmain h⟩
  top f rest h := by
    rw [hnil] at h
    cases h
  rest f rest h := by
    rw [hnil] at h
    cases h
  suspended := hsusp

theorem Ctl.command (hnil : s.handlers = []) (hpc : s.main = .prompt) (h : CommandStep s c s') :
    Ctl s' := by
  cases h with
  | nothing => exact .of_nil hnil (fun h => by rw [hpc] at h; exact h.elim) (by rw [hpc]; exact nofun)
  | launch state cmdline _ => exact .of_nil hnil (fun _ => Finset.subset_union_right) nofun
  | quit => exact .of_nil rfl False.elim nofun
  | jobs outfile => exact .of_nil hnil (fun _ => Finset.subset_union_right) nofun
  | openFails =>
    exact .of_nil hnil (fun h => by rw [hpc] at h; exact h.elim) (by rw [hpc]; exact nofun)
  | backFore backg arg => exact .of_nil hnil (fun _ => Finset.subset_union_right) nofun

theorem Ctl.mainStep (hs : Ctl s) (hnil : s.handlers = []) (h : MainStep s s') : Ctl s' := by
  have hb : s.main.Blocked → blockMask ⊆ s.mask := fun h => (hs.main h).2
  cases h with
  | forkOk state cmdline pid h => exact .of_nil hnil (fun _ => hb (h ▸ trivial)) nofun
  | forkFails state cmdline h => exact .of_nil hnil (fun _ => hb (h ▸ trivial)) nofun
  | addJob state cmdline pid alloc l' jid h =>
    refine .of_nil hnil (fun _ => hb (h ▸ trivial)) ?_
    intro old woken heq
    change (if state = .BG then Main.announce pid else .waitTest) = _ at heq
    split at heq
    · cases heq
    · cases heq
  | announce pid h => exact .of_nil hnil (fun _ => hb (h ▸ trivial)) nofun
  | suspend h =>
    refine .of_nil hnil False.elim ?_
    intro old woken heq
    cases heq
    exact hb (h ▸ trivial)
  | wake old h => exact .of_nil hnil (fun _ => hs.suspended old true h) nofun
  | waited h => exact .of_nil hnil (fun _ => hb (h ▸ trivial)) nofun
  | unblock close h =>
    cases close with
    | true => exact .of_nil hnil False.elim nofun
    | false => exact .of_nil hnil False.elim nofun
  | refuse => exact .of_nil hnil False.elim nofun
  | sendCont backg arg jid₀ pid₀ jid pid h => exact .of_nil hnil (fun _ => hb (h ▸ trivial)) nofun
  | setState backg pid l' h =>
    cases backg with
    | true => exact .of_nil hnil (fun _ => hb (h ▸ trivial)) nofun
    | false => exact .of_nil hnil (fun _ => hb (h ▸ trivial)) nofun
  | again => exact .of_nil hnil False.elim nofun
  | listed close h => exact .of_nil hnil (fun _ => hb (h ▸ trivial)) nofun
  | closed => exact .of_nil hnil False.elim nofun
  | _ => exact .of_nil rfl False.elim nofun

/-- A handler runs over a frame that is not in a blocked section. -/
theorem Ctl.open_main (hs : Ctl s) (hf : s.handlers = f :: rest) : ¬ s.main.Blocked := by
  intro h
  rw [(hs.main h).1] at hf
  cases hf

/-- The handler on top goes on, at a blocked `pc` only under the mask. -/
theorem Ctl.handle (hs : Ctl s) (hf : s.handlers = f :: rest) {g : Handler}
    (hmain : s'.main = s.main) (hhandlers : s'.handlers = g :: rest)
    (hmask : g.pc.Blocked → blockMask ⊆ s'.mask) : Ctl s' where
  main h := absurd (hmain ▸ h) (hs.open_main hf)
  top f' rest' h hb := by
    rw [hhandlers] at h
    obtain ⟨rfl, rfl⟩ := List.cons.inj h
    exact hmask hb
  rest f' rest' h := by
    rw [hhandlers] at h
    obtain ⟨rfl, rfl⟩ := List.cons.inj h
    exact hs.rest f rest hf
  suspended old woken h := hs.suspended old woken (hmain ▸ h)

theorem Main.wake_suspended {pc : Main} {old : Mask} {woken : Bool}
    (h : pc.wake = .suspended old woken) : ∃ woken', pc = .suspended old woken' := by
  cases pc with
  | suspended old' woken' =>
    cases h
    exact ⟨woken', rfl⟩
  | _ => cases h

theorem Main.wake_blocked {pc : Main} : pc.wake.Blocked ↔ pc.Blocked := by
  cases pc with
  | _ => rfl

theorem Ctl.handlerStep (hs : Ctl s) (hf : s.handlers = f :: rest) (h : HandlerStep s f rest s') :
    Ctl s' := by
  have hb : f.pc.Blocked → blockMask ⊆ s.mask := hs.top f rest hf
  cases h with
  | block h => exact hs.handle hf rfl rfl fun _ => Finset.subset_union_right
  | reap pid status h => exact hs.handle hf rfl rfl fun _ => hb (h ▸ trivial)
  | reportStop pid h => exact hs.handle hf rfl rfl fun _ => hb (h ▸ trivial)
  | drained h => exact hs.handle hf rfl rfl fun _ => hb (h ▸ trivial)
  | deleteJob pid status l' found h => exact hs.handle hf rfl rfl fun _ => hb (h ▸ trivial)
  | markStopped pid l' h => exact hs.handle hf rfl rfl fun _ => hb (h ▸ trivial)
  | forward h => exact hs.handle hf rfl rfl fun _ => hb (h ▸ trivial)
  | unblock h => exact hs.handle hf rfl rfl False.elim
  | ret h =>
    refine ⟨fun hb => ?_, fun g rest' heq hb => ?_, fun g rest' heq g' hg' => ?_,
      fun old woken heq => ?_⟩
    · change (if rest = [] then s.main.wake else s.main).Blocked at hb
      have hopen := hs.open_main hf
      split at hb
      · exact absurd (Main.wake_blocked.mp hb) hopen
      · exact absurd hb hopen
    · obtain rfl : rest = g :: rest' := heq
      exact absurd hb (hs.rest f _ hf g List.mem_cons_self)
    · obtain rfl : rest = g :: rest' := heq
      exact hs.rest f _ hf g' (List.mem_cons_of_mem _ hg')
    · change (if rest = [] then s.main.wake else s.main) = _ at heq
      split at heq
      · obtain ⟨woken', hw⟩ := Main.wake_suspended heq
        exact hs.suspended old woken' hw
      · exact hs.suspended old woken heq
  | _ => exact .of_nil rfl False.elim nofun

theorem Ctl.world (hs : Ctl s) (h : WorldStep s s') : Ctl s' := by
  cases h with
  | fatal => exact .of_nil rfl False.elim nofun
  | change => exact ⟨hs.main, hs.top, hs.rest, hs.suspended⟩
  | arrive => exact ⟨hs.main, hs.top, hs.rest, hs.suspended⟩
  | deliver sig hsig hpending hmask hrun =>
    -- A frame in a blocked section would have this signal in the mask.
    refine ⟨fun hb => ?_, fun g rest heq hb => ?_, fun g rest heq g' hg' hb => ?_, hs.suspended⟩
    · exact absurd ((hs.main hb).2 hsig) hmask
    · obtain ⟨rfl, rfl⟩ := List.cons.inj heq
      exact hb.elim
    · obtain ⟨rfl, rfl⟩ := List.cons.inj heq
      cases hh : s.handlers with
      | nil =>
        rw [hh] at hg'
        cases hg'
      | cons f rest =>
        rw [hh] at hg'
        rcases List.mem_cons.mp hg' with rfl | hg'
        · exact hmask (hs.top g' rest hh hb hsig)
        · exact hs.rest f rest hh g' hg' hb

end Control

/-! ### The job list -/

/-- Where a foreground job may exist: where `eval` or `fg` waits for it, or nothing runs any more. -/
def Main.Waits : Main → Prop
  | .waitTest | .suspended _ _ | .ended _ => True
  | _ => False

/-- The state of the job that is being launched. -/
def Main.launches : Main → Option JobState
  | .fork state _ | .forked _ state _ => some state
  | _ => none

/-- The halts that a sound job list allows: `fork` failed, no memory, or a job ID that `bg`, `fg` or
    the handler has from a process that is not listed. -/
def Halt.Expected : Halt → Prop
  | .badPid | .realloc | .noSuchJob _ _ => True
  | _ => False

structure Sound (s : Tsh) : Prop extends Ctl s where
  ok : s.list.Ok
  fg : s.main.Waits ∨ s.list.NoForeground
  launch : ∀ state, s.main.launches = some state → state = .FG ∨ state = .BG
  halt : ∀ e, s.main = .ended (.halt e) → e.Expected

section Step
variable {s s' : Tsh} {f : Handler} {rest : List Handler} {c : Command}

theorem backForeTarget_ok (l : JobList) (arg : Option Bytes) (jid pid : ℤ) :
    ∃ target, backForeTarget l arg jid pid = .ok target := by
  unfold backForeTarget
  split
  · exact ⟨_, rfl⟩
  · split
    · simp only
      split
      · rename_i hex
        obtain ⟨i, hi, hocc⟩ := job_exists_cases hex
        rw [hi, job_get_pid_jidOf hocc]
        exact ⟨_, rfl⟩
      · exact ⟨_, rfl⟩
    · exact ⟨_, rfl⟩

theorem announceJob_halts {l : JobList} {backg : Bool} {jid : ℤ} {e : Halt}
    (h : announceJob l backg jid = .error e) : e.Expected := by
  unfold announceJob at h
  split at h
  · rcases em (l.job_exists jid = true) with hex | hex
    · obtain ⟨i, rfl, hocc⟩ := job_exists_cases hex
      rw [job_get_cmdline_jidOf hocc] at h
      cases h
    · rw [job_get_cmdline_missing hex] at h
      cases h
      trivial
  · cases h

/-- Setting the state of the job of a process, or of none. -/
theorem job_set_state_pid {l : JobList} (hok : l.Ok) (pid : ℤ) {state : JobState}
    (hstate : state ≠ .UNDEF) (hfg : state = .FG → l.NoForeground) :
    (l.job_set_state (l.job_from_pid pid) state = .error (.noSuchJob "job_set_state" 0) ∧
      ∀ i, l.Occupied i → (l.job_list i).pid ≠ pid) ∨
    ∃ i, l.Occupied i ∧ (l.job_list i).pid = pid ∧
      l.job_set_state (l.job_from_pid pid) state = .ok (l.setState i state) := by
  rcases job_from_pid_cases l hok.pid pid with ⟨hzero, hnone⟩ | ⟨i, hi, hocc, hpid⟩
  · rw [hzero]
    exact Or.inl ⟨job_set_state_zero, hnone⟩
  · rw [hi]
    exact Or.inr ⟨i, hocc, hpid, job_set_state_jidOf hocc hstate hfg⟩

/-- Deleting the job of a process, or of none. -/
theorem delete_job_pid {l : JobList} (hok : l.Ok) (pid : ℤ) :
    (l.delete_job (l.job_from_pid pid) = .ok (l, false) ∧
      ∀ i, l.Occupied i → (l.job_list i).pid ≠ pid) ∨
    ∃ i, l.Occupied i ∧ (l.job_list i).pid = pid ∧
      l.delete_job (l.job_from_pid pid) = .ok (l.deleted i, true) := by
  rcases job_from_pid_cases l hok.pid pid with ⟨hzero, hnone⟩ | ⟨i, hi, hocc, hpid⟩
  · rw [hzero]
    exact Or.inl ⟨delete_job_zero, hnone⟩
  · rw [hi]
    exact Or.inr ⟨i, hocc, hpid, delete_job_jidOf hocc⟩

theorem Sound.command (hs : Sound s) (hnil : s.handlers = []) (hpc : s.main = .prompt)
    (h : CommandStep s c s') : Sound s' := by
  have hctl := Ctl.command hnil hpc h
  have hno : s.list.NoForeground := hs.fg.resolve_left (by rw [hpc]; exact id)
  cases h with
  | nothing => exact hs
  | launch state cmdline hstate =>
    refine ⟨hctl, hs.ok, Or.inr hno, ?_, nofun⟩
    intro state' heq
    cases heq
    exact hstate
  | quit => exact ⟨hctl, hs.ok, Or.inl trivial, nofun, nofun⟩
  | jobs outfile => exact ⟨hctl, hs.ok, Or.inr hno, nofun, nofun⟩
  | openFails => exact hs
  | backFore backg arg => exact ⟨hctl, hs.ok, Or.inr hno, nofun, nofun⟩

/-- Between `fork` and `add_job` no job is in the foreground, and the new one gets a real state. -/
theorem Sound.forked_launch (hs : Sound s) {pid : ℤ} {state : JobState} {cmdline : Bytes}
    (h : s.main = .forked pid state cmdline) : s.list.NoForeground ∧ state ≠ .UNDEF := by
  refine ⟨hs.fg.resolve_left (h ▸ id), ?_⟩
  rcases hs.launch state (h ▸ rfl) with rfl | rfl
  · exact nofun
  · exact nofun

/-- `eval` adds the child it forked, unless the table is full. -/
theorem Sound.addJob_inv (hs : Sound s) {pid jid : ℤ} {state : JobState} {cmdline : Bytes}
    {alloc : Bool} {l' : JobList} (h : s.main = .forked pid state cmdline)
    (hadd : s.list.add_job pid state (some cmdline) alloc = .ok (l', jid)) :
    0 < pid ∧ ((l' = s.list ∧ jid = 0) ∨ ∃ i, s.list.nextjid = jidOf i ∧ ¬ s.list.Occupied i ∧
      l' = s.list.added i pid state cmdline ∧ jid = jidOf i) := by
  obtain ⟨hno, hstate⟩ := hs.forked_launch h
  rcases add_job_cases hs.ok hstate (fun _ => hno) pid cmdline alloc with ⟨-, heq⟩ |
    ⟨hpid, -, heq⟩ | ⟨-, -, heq⟩ | ⟨i, hpid, -, hnext, hfree, heq⟩
  · rw [heq] at hadd
    cases hadd
  · rw [heq] at hadd
    cases hadd
    exact ⟨hpid, Or.inl ⟨rfl, rfl⟩⟩
  · rw [heq] at hadd
    cases hadd
  · rw [heq] at hadd
    cases hadd
    exact ⟨hpid, Or.inr ⟨i, hnext, hfree, rfl, rfl⟩⟩

theorem Sound.addJob_halts (hs : Sound s) {pid : ℤ} {state : JobState} {cmdline : Bytes}
    {alloc : Bool} {e : Halt} (h : s.main = .forked pid state cmdline)
    (hadd : s.list.add_job pid state (some cmdline) alloc = .error e) : e.Expected := by
  obtain ⟨hno, hstate⟩ := hs.forked_launch h
  rcases add_job_cases hs.ok hstate (fun _ => hno) pid cmdline alloc with ⟨-, heq⟩ |
    ⟨-, -, heq⟩ | ⟨-, -, heq⟩ | ⟨i, -, -, -, -, heq⟩
  · rw [heq] at hadd
    cases hadd
    trivial
  · rw [heq] at hadd
    cases hadd
  · rw [heq] at hadd
    cases hadd
    trivial
  · rw [heq] at hadd
    cases hadd

/-- `bg` and `fg` set the state of the job of the process they signalled, or halt. -/
theorem Sound.setState_inv (hs : Sound s) {backg : Bool} {pid : ℤ} (h : s.main = .resume backg pid) :
    s.list.job_set_state (s.list.job_from_pid pid) (if backg then JobState.BG else .FG) =
      .error (.noSuchJob "job_set_state" 0) ∨
    ∃ i, s.list.Occupied i ∧ (s.list.job_list i).pid = pid ∧
      s.list.job_set_state (s.list.job_from_pid pid) (if backg then JobState.BG else .FG) =
        .ok (s.list.setState i (if backg then .BG else .FG)) := by
  have hno : s.list.NoForeground := hs.fg.resolve_left (h ▸ id)
  have hstate : (if backg then JobState.BG else .FG) ≠ .UNDEF := by
    cases backg with
    | true => exact nofun
    | false => exact nofun
  rcases job_set_state_pid hs.ok pid hstate fun _ => hno with ⟨heq, -⟩ | hfound
  · exact Or.inl heq
  · exact Or.inr hfound

/-- The shell halts with a list that is still sound. -/
theorem Sound.finish (hs : Sound s) (why : Ended) (he : ∀ e, why = .halt e → e.Expected) :
    Sound (s.finish why) where
  toCtl := .of_nil rfl False.elim nofun
  ok := hs.ok
  fg := Or.inl trivial
  launch := nofun
  halt e heq := he e (Main.ended.inj heq)

theorem Sound.mainStep (hs : Sound s) (hnil : s.handlers = []) (h : MainStep s s') : Sound s' := by
  have hctl := hs.toCtl.mainStep hnil h
  have hno : ¬ s.main.Waits → s.list.NoForeground := hs.fg.resolve_left
  cases h with
  | forkOk state cmdline pid h =>
    refine ⟨hctl, hs.ok, Or.inr (hno (h ▸ id)), ?_, nofun⟩
    intro state' heq
    cases heq
    exact hs.launch state (h ▸ rfl)
  | forkFails state cmdline h =>
    refine ⟨hctl, hs.ok, Or.inr (hno (h ▸ id)), ?_, nofun⟩
    intro state' heq
    cases heq
    exact hs.launch state (h ▸ rfl)
  | addJob state cmdline pid alloc l' jid h hadd =>
    have hno' := hno (h ▸ id)
    have hlaunch := hs.launch state (h ▸ rfl)
    obtain ⟨hpid, ⟨rfl, -⟩ | ⟨i, hnext, -, rfl, -⟩⟩ := hs.addJob_inv h hadd
    · rcases hlaunch with rfl | rfl
      · exact ⟨hctl, hs.ok, Or.inl trivial, nofun, nofun⟩
      · exact ⟨hctl, hs.ok, Or.inr hno', nofun, nofun⟩
    · rcases hlaunch with rfl | rfl
      · exact ⟨hctl, hs.ok.added hnext hpid nofun fun _ => hno', Or.inl trivial, nofun, nofun⟩
      · exact ⟨hctl, hs.ok.added hnext hpid nofun nofun, Or.inr (hno'.put nofun), nofun, nofun⟩
  | addJobHalts state cmdline pid alloc e h hadd =>
    refine hs.finish _ ?_
    rintro e' ⟨⟩
    exact hs.addJob_halts h hadd
  | announce pid h => exact ⟨hctl, hs.ok, Or.inr (hno (h ▸ id)), nofun, nofun⟩
  | suspend h => exact ⟨hctl, hs.ok, Or.inl trivial, nofun, nofun⟩
  | wake old h => exact ⟨hctl, hs.ok, Or.inl trivial, nofun, nofun⟩
  | waited h hfg =>
    have hnone : s.list.NoForeground := by
      rcases fg_job_cases s.list with ⟨-, hnone⟩ | ⟨i, hi, -⟩
      · exact hnone
      · exact absurd (hi ▸ jidOf_pos i) hfg
    exact ⟨hctl, hs.ok, Or.inr hnone, nofun, nofun⟩
  | unblock close h =>
    cases close with
    | true => exact ⟨hctl, hs.ok, Or.inr (hno (h ▸ id)), nofun, nofun⟩
    | false => exact ⟨hctl, hs.ok, Or.inr (hno (h ▸ id)), nofun, nofun⟩
  | refuse backg arg jid pid why h => exact ⟨hctl, hs.ok, Or.inr (hno (h ▸ id)), nofun, nofun⟩
  | targetHalts backg arg jid pid e h htarget =>
    obtain ⟨target, hok⟩ := backForeTarget_ok s.list arg jid pid
    rw [hok] at htarget
    cases htarget
  | sendCont backg arg jid₀ pid₀ jid pid h =>
    exact ⟨hctl, hs.ok, Or.inr (hno (h ▸ id)), nofun, nofun⟩
  | announceHalts backg arg jid₀ pid₀ jid pid e h htarget hline =>
    refine hs.finish _ ?_
    rintro e' ⟨⟩
    exact announceJob_halts hline
  | setState backg pid l' h hset =>
    have hno' := hno (h ▸ id)
    rcases hs.setState_inv h with heq | ⟨i, hocc, -, heq⟩
    · rw [heq] at hset
      cases hset
    · rw [heq] at hset
      cases hset
      cases backg with
      | true => exact ⟨hctl, hs.ok.setState hocc nofun nofun, Or.inr (hno'.put nofun), nofun, nofun⟩
      | false =>
        exact ⟨hctl, hs.ok.setState hocc nofun fun _ => hno', Or.inl trivial, nofun, nofun⟩
  | setStateHalts backg pid e h hset =>
    refine hs.finish _ ?_
    rintro e' ⟨⟩
    rcases hs.setState_inv h with heq | ⟨i, -, -, heq⟩
    · rw [heq] at hset
      cases hset
      trivial
    · rw [heq] at hset
      cases hset
  | again h => exact ⟨hctl, hs.ok, Or.inr (hno (h ▸ id)), nofun, nofun⟩
  | listed close h => exact ⟨hctl, hs.ok, Or.inr (hno (h ▸ id)), nofun, nofun⟩
  | closed h => exact ⟨hctl, hs.ok, Or.inr (hno (h ▸ id)), nofun, nofun⟩
  | closeFails h => exact hs.finish _ nofun

theorem Main.wake_waits {pc : Main} : pc.wake.Waits ↔ pc.Waits := by
  cases pc with
  | _ => rfl

theorem Main.wake_launches {pc : Main} : pc.wake.launches = pc.launches := by
  cases pc with
  | _ => rfl

theorem Main.wake_ended {pc : Main} {why : Ended} : pc.wake = .ended why ↔ pc = .ended why := by
  cases pc with
  | suspended old woken => exact ⟨nofun, nofun⟩
  | _ => rfl

/-- A handler that leaves `main` where it is, or wakes it up. -/
theorem Sound.keep (hs : Sound s) (hctl : Ctl s')
    (hmain : s'.main = s.main ∨ s'.main = s.main.wake) (hok : s'.list.Ok)
    (hno : s.list.NoForeground → s'.list.NoForeground) : Sound s' := by
  refine ⟨hctl, hok, ?_, ?_, ?_⟩
  · rcases hs.fg with hw | hnone
    · rcases hmain with heq | heq
      · exact Or.inl (heq ▸ hw)
      · exact Or.inl (heq ▸ Main.wake_waits.mpr hw)
    · exact Or.inr (hno hnone)
  · rcases hmain with heq | heq
    · exact heq ▸ hs.launch
    · rw [heq, Main.wake_launches]
      exact hs.launch
  · intro e he
    rcases hmain with heq | heq
    · exact hs.halt e (heq ▸ he)
    · exact hs.halt e (Main.wake_ended.mp (heq ▸ he))

theorem Sound.handlerStep (hs : Sound s) (hf : s.handlers = f :: rest)
    (h : HandlerStep s f rest s') : Sound s' := by
  have hctl := hs.toCtl.handlerStep hf h
  cases h with
  | deleteJob pid status l' found h hstatus hdel =>
    rcases delete_job_pid hs.ok pid with ⟨heq, -⟩ | ⟨i, hocc, -, heq⟩
    · rw [heq] at hdel
      cases hdel
      exact hs.keep hctl (Or.inl rfl) hs.ok id
    · rw [heq] at hdel
      cases hdel
      exact hs.keep hctl (Or.inl rfl) hs.ok.deleted fun hnone => hnone.put nofun
  | deleteHalts pid status e h hstatus hdel =>
    rcases delete_job_pid hs.ok pid with ⟨heq, -⟩ | ⟨i, -, -, heq⟩
    · rw [heq] at hdel
      cases hdel
    · rw [heq] at hdel
      cases hdel
  | markStopped pid l' h hset =>
    rcases @job_set_state_pid _ hs.ok pid .ST nofun nofun with ⟨heq, -⟩ | ⟨i, hocc, -, heq⟩
    · rw [heq] at hset
      cases hset
    · rw [heq] at hset
      cases hset
      exact hs.keep hctl (Or.inl rfl) (hs.ok.setState hocc nofun nofun) fun hnone =>
        hnone.put nofun
  | markHalts pid e h hset =>
    refine hs.finish _ ?_
    rintro e' ⟨⟩
    rcases @job_set_state_pid _ hs.ok pid .ST nofun nofun with ⟨heq, -⟩ | ⟨i, -, -, heq⟩
    · rw [heq] at hset
      cases hset
      trivial
    · rw [heq] at hset
      cases hset
  | forwardHalts e h hfg hpid => exact absurd hpid (fg_job_pid hfg)
  | ret h =>
    refine hs.keep hctl ?_ hs.ok id
    change (if rest = [] then s.main.wake else s.main) = _ ∨ _
    split
    · exact Or.inr rfl
    · exact Or.inl rfl
  | _ => exact hs.keep hctl (Or.inl rfl) hs.ok id

theorem Sound.world (hs : Sound s) (h : WorldStep s s') : Sound s' := by
  have hctl := hs.toCtl.world h
  cases h with
  | fatal => exact hs.finish _ nofun
  | _ => exact hs.keep hctl (Or.inl rfl) hs.ok id

theorem Sound.step {a : Label} (hs : Sound s) (h : s.Step a s') : Sound s' := by
  cases a with
  | command c => exact hs.command h.2.1 h.1 h.2.2
  | main => exact hs.mainStep h.1 h.2
  | handler =>
    obtain ⟨f, rest, hf, h⟩ := h
    exact hs.handlerStep hf h
  | world => exact hs.world h

theorem sound_init (h : tsh.init s) : Sound s := by
  obtain ⟨hlist, hmain, hnil, -, -⟩ := h
  refine ⟨.of_nil hnil ?_ ?_, ?_, Or.inr ?_, ?_, ?_⟩
  · rw [hmain]
    exact False.elim
  · rw [hmain]
    exact nofun
  · rw [hlist]
    exact ok_init
  · rw [hlist]
    exact noForeground_init
  · rw [hmain]
    exact nofun
  · rw [hmain]
    exact nofun

theorem sound_reachable (h : tsh.Reachable s) : Sound s :=
  System.reachable_of_step (P := Sound) sound_init (fun hs hstep => hs.step hstep) h

/-- The job list is sound in every state, no foreground job is left at the prompt, and no guard
    against a second foreground job and no assertion ever fires. -/
theorem list_sound (h : tsh.Reachable s) :
    ((s.list.nextjid = 1 ∧ ∀ i, s.list.state i = .UNDEF) ∨
      ∃ i, s.list.state i ≠ .UNDEF ∧ s.list.nextjid = jidOf i + 1 ∧
        ∀ j, s.list.state j ≠ .UNDEF → j ≤ i) ∧
    (∀ i, s.list.nextjid = jidOf i → s.list.state i = .UNDEF) ∧
    (∀ i, s.list.state i ≠ .UNDEF →
      (s.list.job_list i).jid = jidOf i ∧ 0 < (s.list.job_list i).pid) ∧
    (∀ i j, s.list.state i = .FG → s.list.state j = .FG → i = j) ∧
    (s.main = .prompt → ∀ i, s.list.state i ≠ .FG) ∧
    ∀ e, s.main = .ended (.halt e) → (∀ jid fg, e ≠ .otherForeground jid fg) ∧
      e ≠ .foregroundExists ∧ ∀ expr, e ≠ .assertion expr := by
  have hs := sound_reachable h
  refine ⟨?_, ?_, fun i hi => ⟨hs.ok.jid i hi, hs.ok.pid i hi⟩, hs.ok.one, ?_, ?_⟩
  · rcases hs.ok.top with ⟨hone, hnone⟩ | ⟨i, hocc, hnext⟩
    · exact Or.inl ⟨hone, fun i => not_not.mp (hnone i)⟩
    · refine Or.inr ⟨i, hocc, hnext, ?_⟩
      intro j hj
      have hbelow := hs.ok.below j hj
      rw [hnext] at hbelow
      unfold jidOf at hbelow
      rw [Fin.le_def]
      omega
  · intro i hnext
    by_contra hocc
    have hbelow := hs.ok.below i hocc
    omega
  · intro hpc
    exact hs.fg.resolve_left (by rw [hpc]; exact id)
  · intro e he
    have hexp := hs.halt e he
    refine ⟨?_, ?_, ?_⟩
    · rintro jid fg rfl
      exact hexp
    · rintro rfl
      exact hexp
    · rintro expr rfl
      exact hexp

end Step

/-! ### A run to a foreground job -/

def fresh : Tsh := ⟨init_job_list, .prompt, [], ∅, ∅, ∅, fun _ => none, []⟩

def launching : Tsh := fresh.block (.fork .FG [])

def adding : Tsh :=
  ((launching.goto (.forked 100 .FG [])).setChild 100 (some .running)).record (.forked 100)

def testing : Tsh :=
  ((adding.goto .waitTest).setList (init_job_list.added ⟨0, by decide⟩ 100 .FG [])).record (.added 100 1)

/-- Process 100 runs in the foreground, and the shell waits for it in `sigsuspend`. -/
def waiting : Tsh := { testing with main := .suspended testing.mask false, mask := testing.prev }

theorem testing_reachable : tsh.Reachable testing := by
  have hlaunch : tsh.step fresh (.command (.launch .FG [])) launching :=
    ⟨rfl, rfl, .launch .FG [] (Or.inl rfl)⟩
  have hfork : tsh.step launching .main adding :=
    ⟨rfl, .forkOk .FG [] 100 rfl (by decide) rfl⟩
  have hadd : tsh.step adding .main testing :=
    ⟨rfl, .addJob .FG [] 100 true _ 1 rfl rfl⟩
  have hinit : tsh.init fresh := ⟨rfl, rfl, rfl, fun _ => rfl, rfl⟩
  exact (((System.reachable_init hinit).step hlaunch).step hfork).step hadd

theorem waiting_reachable : tsh.Reachable waiting := by
  have hsuspend : tsh.step testing .main waiting := ⟨rfl, .suspend rfl (by decide)⟩
  exact testing_reachable.step hsuspend

theorem list_sound_waiting : (∀ i, waiting.list.state i ≠ .UNDEF →
      (waiting.list.job_list i).jid = jidOf i ∧ 0 < (waiting.list.job_list i).pid) ∧
    ∀ i j, waiting.list.state i = .FG → waiting.list.state j = .FG → i = j :=
  ⟨(list_sound waiting_reachable).2.2.1, (list_sound waiting_reachable).2.2.2.1⟩

end Labs.Shell
