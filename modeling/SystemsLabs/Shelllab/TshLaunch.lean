import SystemsLabs.Shelllab.TshTracks

/-! @lab shelllab | file:tsh.c (eval, sigchld_handler) | scheme:transition | main result:when a launch
    or a report of `waitpid` aborts the shell

    `eval` ignores both ways in which a launch fails: it hands the `-1` of `fork` to `add_job`, which
    aborts, and it drops the `0` of an `add_job` that found no free job ID. Such a child is `Refused`:
    it runs, but no job has it, and the handler aborts as soon as the child is reported stopped. No
    other step of the launch path or of a handler aborts. `Listing` is what remains of `Tracks` when
    the table has been full: a child is listed iff it was not refused. -/

namespace Labs.Shell
open Schemes JobList

/-- The last `add_job` for the child found no free job ID. -/
def Refused (pid : ℤ) : List Event → Prop
  | [] => False
  | .added p jid :: log => p = pid ∧ jid = 0 ∨ p ≠ pid ∧ Refused pid log
  | _ :: log => Refused pid log

structure Listing (s : Tsh) : Prop where
  kept : ∀ pid, s.list.Listed pid → ¬ Refused pid s.log ∧
    ((s.children pid).isSome ∧ ¬ s.main.Adding pid ∨
      ∃ status, status ≠ .stopped ∧ reaping s.handlers = some (pid, status))
  found : ∀ pid, (s.children pid).isSome → ¬ s.main.Adding pid → ¬ Refused pid s.log →
    s.list.Listed pid
  unique : s.list.Unique
  adding : ∀ pid, s.main.Adding pid → 0 < pid → (s.children pid).isSome
  stopping : ∀ pid, reaping s.handlers = some (pid, .stopped) → (s.children pid).isSome
  dying : ∀ pid status, status ≠ .stopped → reaping s.handlers = some (pid, status) →
    s.children pid = none

section Step
variable {s s' : Tsh} {f : Handler} {rest : List Handler} {c : Command}

/-- Where the list does not change, nor which children there are. -/
theorem Listing.quiet (hl : Listing s) (hlist : ∀ pid, s'.list.Listed pid ↔ s.list.Listed pid)
    (hunique : s'.list.Unique)
    (hchildren : ∀ pid, (s'.children pid).isSome = (s.children pid).isSome)
    (hlog : ∀ pid, Refused pid s'.log ↔ Refused pid s.log)
    (hadding : ∀ pid, s'.main.Adding pid ↔ s.main.Adding pid)
    (hstop : ∀ pid, reaping s'.handlers = some (pid, .stopped) → (s.children pid).isSome)
    (hdying : ∀ pid status, status ≠ .stopped →
      (reaping s'.handlers = some (pid, status) ↔ reaping s.handlers = some (pid, status))) :
    Listing s' where
  kept pid hp := by
    obtain ⟨href, hold⟩ := hl.kept pid ((hlist pid).mp hp)
    refine ⟨fun h => href ((hlog pid).mp h), ?_⟩
    rcases hold with ⟨hlive, hadd⟩ | ⟨status, hne, hr⟩
    · exact Or.inl ⟨hchildren pid ▸ hlive, fun h => hadd ((hadding pid).mp h)⟩
    · exact Or.inr ⟨status, hne, (hdying pid status hne).mpr hr⟩
  found pid hlive hadd href := by
    rw [hchildren] at hlive
    exact (hlist pid).mpr (hl.found pid hlive (fun h => hadd ((hadding pid).mpr h))
      fun h => href ((hlog pid).mpr h))
  unique := hunique
  adding pid h hpos := by
    rw [hchildren]
    exact hl.adding pid ((hadding pid).mp h) hpos
  stopping pid h := by
    rw [hchildren]
    exact hstop pid h
  dying pid status hne h := by
    have hnone := hl.dying pid status hne ((hdying pid status hne).mp h)
    have hsome := hchildren pid
    rw [hnone] at hsome
    simpa using hsome

theorem Main.not_adding {pc : Main} (pc' : Main) (h : pc = pc')
    (hne : ∀ pid state cmdline, pc' ≠ .forked pid state cmdline) (pid : ℤ) : ¬ pc.Adding pid := by
  rintro ⟨state, cmdline, heq⟩
  exact hne pid state cmdline (h.symm.trans heq)

/-- Outside of a launch. -/
theorem Listing.plain (hl : Listing s) (hpc : ∀ pid, ¬ s.main.Adding pid)
    (hpc' : ∀ pid, ¬ s'.main.Adding pid) (hlist : s'.list = s.list)
    (hchildren : s'.children = s.children) (hlog : ∀ pid, Refused pid s'.log ↔ Refused pid s.log)
    (hreaping : reaping s'.handlers = reaping s.handlers) : Listing s' := by
  refine hl.quiet (fun _ => by rw [hlist]) (hlist ▸ hl.unique) (fun _ => by rw [hchildren])
    hlog (fun pid => iff_of_false (hpc' pid) (hpc pid)) ?_ ?_
  · intro pid h
    exact hl.stopping pid (hreaping ▸ h)
  · intro pid status _
    rw [hreaping]

/-- The code of the shell goes on, outside of a launch. -/
theorem Listing.goto (hl : Listing s) {pc : Main} (h : s.main = pc)
    (hne : ∀ pid state cmdline, pc ≠ .forked pid state cmdline)
    (hne' : ∀ pid state cmdline, s'.main ≠ .forked pid state cmdline) (hlist : s'.list = s.list)
    (hchildren : s'.children = s.children) (hlog : ∀ pid, Refused pid s'.log ↔ Refused pid s.log)
    (hhandlers : s'.handlers = s.handlers) : Listing s' :=
  hl.plain (Main.not_adding pc h hne) (Main.not_adding s'.main rfl hne') hlist hchildren hlog
    (by rw [hhandlers])

theorem Listing.command (hl : Listing s) (hpc : s.main = .prompt) (h : CommandStep s c s')
    (hnil : s.handlers = []) : Listing s' := by
  cases h with
  | nothing => exact hl
  | openFails => exact hl
  | quit => exact hl.goto hpc nofun nofun rfl rfl (fun _ => Iff.rfl) hnil.symm
  | _ => exact hl.goto hpc nofun nofun rfl rfl (fun _ => Iff.rfl) rfl

/-! ### Launching -/

/-- With no handler running, a listed process is a child that was added. -/
theorem Listing.added_of_nil (hl : Listing s) (hnil : s.handlers = []) {pid : ℤ}
    (h : s.list.Listed pid) :
    ¬ Refused pid s.log ∧ (s.children pid).isSome ∧ ¬ s.main.Adding pid := by
  obtain ⟨href, hold⟩ := hl.kept pid h
  refine ⟨href, hold.resolve_right ?_⟩
  rintro ⟨status, -, hr⟩
  rw [hnil] at hr
  cases hr

theorem Listing.forked (hl : Listing s) (hnil : s.handlers = []) {state : JobState}
    {cmdline : Bytes} {pid : ℤ} (h : s.main = .fork state cmdline) (hfree : s.children pid = none) :
    Listing (((s.goto (.forked pid state cmdline)).setChild pid (some .running)).record
      (.forked pid)) := by
  have hold : s.main.Plain := by
    rw [h]
    exact Main.plain_of nofun nofun
  have hnone : reaping s.handlers = none := by
    rw [hnil]
    rfl
  have hother : ∀ p, p ≠ pid → Function.update s.children pid (some .running) p = s.children p :=
    fun p hne => Function.update_of_ne hne ..
  refine ⟨?_, ?_, hl.unique, ?_, ?_, ?_⟩
  · intro p hp
    obtain ⟨href, hlive, -⟩ := hl.added_of_nil hnil hp
    have hne : p ≠ pid := by
      rintro rfl
      rw [hfree] at hlive
      cases hlive
    refine ⟨href, Or.inl ⟨?_, fun ha => hne (Main.adding_forked.mp ha)⟩⟩
    exact (congrArg Option.isSome (hother p hne)).trans hlive
  · intro p hlive ha href
    have hne : p ≠ pid := fun heq => ha (Main.adding_forked.mpr heq)
    exact hl.found p ((congrArg Option.isSome (hother p hne)).symm.trans hlive) (hold.1 p) href
  · intro p ha _
    obtain rfl := Main.adding_forked.mp ha
    exact congrArg Option.isSome (Function.update_self p _ s.children)
  · intro p hp
    exact absurd (hnone.symm.trans hp) nofun
  · intro p status _ hp
    exact absurd (hnone.symm.trans hp) nofun

theorem Listing.forkFailed (hl : Listing s) (hs : Sound s) (hnil : s.handlers = [])
    {state : JobState} {cmdline : Bytes} (h : s.main = .fork state cmdline) :
    Listing (s.goto (.forked (-1) state cmdline)) := by
  have hold : s.main.Plain := by
    rw [h]
    exact Main.plain_of nofun nofun
  refine ⟨?_, fun p hlive _ href => hl.found p hlive (hold.1 p) href, hl.unique, ?_, hl.stopping,
    hl.dying⟩
  · rintro p ⟨i, hi, rfl⟩
    obtain ⟨href, hlive, -⟩ := hl.added_of_nil hnil ⟨i, hi, rfl⟩
    refine ⟨href, Or.inl ⟨hlive, fun ha => ?_⟩⟩
    have hpos := hs.ok.pid i hi
    have heq : (s.list.job_list i).pid = -1 := Main.adding_forked.mp ha
    rw [heq] at hpos
    cases hpos
  · intro p ha hpos
    obtain rfl := Main.adding_forked.mp ha
    cases hpos

/-- `add_job` lists the child, or refuses it. -/
theorem Listing.added (hl : Listing s) (hnil : s.handlers = []) {state : JobState}
    {cmdline : Bytes} {pid jid : ℤ} {l' : JobList} {pc : Main}
    (h : s.main = .forked pid state cmdline) (hpid : 0 < pid) (hpc : pc.Plain)
    (hunique : l'.Unique)
    (hlist : ∀ p, l'.Listed p ↔ p = pid ∧ jid ≠ 0 ∨ s.list.Listed p) :
    Listing (((s.goto pc).setList l').record (.added pid jid)) := by
  have hadding : ∀ p, s.main.Adding p ↔ p = pid := fun p => h ▸ Main.adding_forked
  have hnone : reaping s.handlers = none := by
    rw [hnil]
    rfl
  refine ⟨?_, ?_, hunique, fun p ha => absurd ha (hpc.1 p), ?_, ?_⟩
  · intro p hp
    rcases (hlist p).mp hp with ⟨rfl, hjid⟩ | hp
    · refine ⟨?_, Or.inl ⟨hl.adding p ((hadding p).mpr rfl) hpid, hpc.1 p⟩⟩
      rintro (⟨-, hzero⟩ | ⟨hne, -⟩)
      · exact hjid hzero
      · exact hne rfl
    · obtain ⟨href, hlive, ha⟩ := hl.added_of_nil hnil hp
      refine ⟨?_, Or.inl ⟨hlive, hpc.1 p⟩⟩
      rintro (⟨rfl, -⟩ | ⟨-, hold⟩)
      · exact ha ((hadding pid).mpr rfl)
      · exact href hold
  · intro p hlive _ href
    refine (hlist p).mpr ?_
    rcases eq_or_ne p pid with rfl | hne
    · exact Or.inl ⟨rfl, fun hzero => href (Or.inl ⟨rfl, hzero⟩)⟩
    · exact Or.inr (hl.found p hlive (fun ha => hne ((hadding p).mp ha))
        fun hold => href (Or.inr ⟨hne.symm, hold⟩))
  · intro p hp
    exact absurd (hnone.symm.trans hp) nofun
  · intro p status _ hp
    exact absurd (hnone.symm.trans hp) nofun

/-! ### The handler -/

theorem Listing.reaped (hl : Listing s) (hpc : s.main.Plain) (hnone : reaping s.handlers = none)
    {pid : ℤ} {status : Status} (hstatus : status ≠ .stopped) :
    Listing (((s.handle f rest (.reaped pid status)).setChild pid none).record (.reaped pid)) := by
  have hother : ∀ p, p ≠ pid → Function.update s.children pid none p = s.children p :=
    fun p hne => Function.update_of_ne hne ..
  refine ⟨?_, ?_, hl.unique, fun p ha => absurd ha (hpc.1 p), ?_, ?_⟩
  · intro p hp
    obtain ⟨href, hold⟩ := hl.kept p hp
    refine ⟨href, ?_⟩
    rcases eq_or_ne p pid with rfl | hne
    · exact Or.inr ⟨status, hstatus, rfl⟩
    · rcases hold with ⟨hlive, ha⟩ | ⟨status', -, hr⟩
      · exact Or.inl ⟨(congrArg Option.isSome (hother p hne)).trans hlive, ha⟩
      · exact absurd (hnone.symm.trans hr) nofun
  · intro p hlive ha href
    rcases eq_or_ne p pid with rfl | hne
    · change (Function.update s.children p none p).isSome at hlive
      rw [Function.update_self] at hlive
      cases hlive
    · exact hl.found p ((congrArg Option.isSome (hother p hne)).symm.trans hlive) ha href
  · intro p hp
    cases hp
    exact absurd rfl hstatus
  · intro p status' _ hp
    cases hp
    exact Function.update_self ..

theorem Listing.deleted (hl : Listing s) (hpc : s.main.Plain) {pid : ℤ} {status : Status}
    {l' : JobList} (hstatus : status ≠ .stopped) (hr : reaping s.handlers = some (pid, status))
    (hunique : l'.Unique) (hlist : ∀ p, l'.Listed p ↔ p ≠ pid ∧ s.list.Listed p) :
    Listing ((s.handle f rest .waiting).setList l') := by
  refine ⟨?_, ?_, hunique, fun p ha => absurd ha (hpc.1 p), nofun, nofun⟩
  · intro p hp
    obtain ⟨hne, hp⟩ := (hlist p).mp hp
    obtain ⟨href, hold⟩ := hl.kept p hp
    refine ⟨href, Or.inl (hold.resolve_right ?_)⟩
    rintro ⟨status', -, hr'⟩
    cases hr.symm.trans hr'
    exact hne rfl
  · intro p hlive ha href
    refine (hlist p).mpr ⟨?_, hl.found p hlive ha href⟩
    rintro rfl
    change (s.children p).isSome at hlive
    rw [hl.dying p status hstatus hr] at hlive
    cases hlive

/-! ### Every run -/

/-- The shell has ended, or `Listing`. -/
def ListingOrGone (s : Tsh) : Prop :=
  (∃ why, s.main = .ended why) ∨ Listing s

theorem Listing.mainStep (hl : Listing s) (hs : Sound s) (hnil : s.handlers = [])
    (h : MainStep s s') : ListingOrGone s' := by
  cases h with
  | forkOk state cmdline pid h hpid hfree => exact Or.inr (hl.forked hnil h hfree)
  | forkFails state cmdline h => exact Or.inr (hl.forkFailed hs hnil h)
  | addJob state cmdline pid alloc l' jid h hadd =>
    obtain ⟨hpid, ⟨rfl, rfl⟩ | ⟨i, -, hfree, rfl, rfl⟩⟩ := hs.addJob_inv h hadd
    · exact Or.inr (hl.added hnil h hpid Main.plain_added hl.unique fun p => by simp)
    · have hstate := (hs.forked_launch h).2
      have hfresh : ¬ s.list.Listed pid := fun hp =>
        (hl.added_of_nil hnil hp).2.2 (h ▸ Main.adding_forked.mpr rfl)
      refine Or.inr (hl.added hnil h hpid Main.plain_added (hl.unique.added hfresh hstate) fun p => ?_)
      have hjid : jidOf i ≠ 0 := (jidOf_pos i).ne'
      simp [listed_added hfree hstate, hjid]
  | setState backg pid l' h hset =>
    rcases hs.setState_inv h with heq | ⟨i, hocc, rfl, heq⟩
    · rw [heq] at hset
      cases hset
    · rw [heq] at hset
      cases hset
      have hundef : (if backg then JobState.BG else .FG) ≠ .UNDEF := by
        split
        · exact nofun
        · exact nofun
      have hpc' : ∀ p, ¬ (if backg then Main.unblock false else .waitTest).Adding p := by
        split
        · exact Main.not_adding _ rfl nofun
        · exact Main.not_adding _ rfl nofun
      refine Or.inr (hl.quiet (fun p => listed_setState hocc hundef)
        (hl.unique.setState hocc hundef) (fun _ => rfl) (fun _ => Iff.rfl) (fun p => ?_)
        hl.stopping fun _ _ _ => Iff.rfl)
      exact iff_of_false (hpc' p) (Main.not_adding _ h nofun p)
  | sendCont backg arg jid₀ pid₀ jid pid h =>
    exact Or.inr (hl.goto h nofun nofun rfl rfl (fun _ => Iff.rfl) rfl)
  | unblock close h =>
    cases close with
    | true => exact Or.inr (hl.goto h nofun nofun rfl rfl (fun _ => Iff.rfl) rfl)
    | false => exact Or.inr (hl.goto h nofun nofun rfl rfl (fun _ => Iff.rfl) rfl)
  | announce pid h => exact Or.inr (hl.goto h nofun nofun rfl rfl (fun _ => Iff.rfl) rfl)
  | suspend h => exact Or.inr (hl.goto h nofun nofun rfl rfl (fun _ => Iff.rfl) rfl)
  | wake old h => exact Or.inr (hl.goto h nofun nofun rfl rfl (fun _ => Iff.rfl) rfl)
  | waited h => exact Or.inr (hl.goto h nofun nofun rfl rfl (fun _ => Iff.rfl) rfl)
  | refuse backg arg jid pid why h =>
    exact Or.inr (hl.goto h nofun nofun rfl rfl (fun _ => Iff.rfl) rfl)
  | again h => exact Or.inr (hl.goto h nofun nofun rfl rfl (fun _ => Iff.rfl) rfl)
  | listed close h => exact Or.inr (hl.goto h nofun nofun rfl rfl (fun _ => Iff.rfl) rfl)
  | closed h => exact Or.inr (hl.goto h nofun nofun rfl rfl (fun _ => Iff.rfl) rfl)
  | addJobHalts | targetHalts | announceHalts | setStateHalts | closeFails =>
    exact Or.inl ⟨_, rfl⟩

theorem Listing.handlerStep (hl : Listing s) (hs : Sound s) (hf : s.handlers = f :: rest)
    (h : HandlerStep s f rest s') : ListingOrGone s' := by
  have hpc : s.main.Plain := Main.plain_of_open (hs.open_main hf)
  cases h with
  | block h =>
    refine Or.inr (hl.plain hpc.1 hpc.1 rfl rfl (fun _ => Iff.rfl) ?_)
    rw [reaping_none hf h nofun]
    cases f.sig with
    | _ => rfl
  | reap pid killed h hchild =>
    refine Or.inr (hl.reaped hpc (reaping_none hf h nofun) ?_)
    cases killed with
    | true => exact nofun
    | false => exact nofun
  | reportStop pid h hchild =>
    have hlive : ∀ p, (Function.update s.children pid (some (.stopped true)) p).isSome =
        (s.children p).isSome := by
      intro p
      rcases eq_or_ne p pid with rfl | hne
      · simp [hchild]
      · simp [hne]
    refine Or.inr (hl.quiet (fun _ => Iff.rfl) hl.unique hlive (fun _ => Iff.rfl)
      (fun _ => Iff.rfl) ?_ ?_)
    · rintro p ⟨⟩
      rw [hchild]
      rfl
    · intro p status hne
      refine iff_of_false ?_ (by rw [reaping_none hf h nofun]; exact nofun)
      rintro ⟨⟩
      exact hne rfl
  | drained h =>
    exact Or.inr (hl.plain hpc.1 hpc.1 rfl rfl (fun _ => Iff.rfl) (reaping_none hf h nofun).symm)
  | deleteJob pid status l' found h hstatus hdel =>
    have hreaping := reaping_top hf h
    rcases delete_job_pid hs.ok pid with ⟨heq, hnone⟩ | ⟨i, hocc, rfl, heq⟩
    · rw [heq] at hdel
      cases hdel
      refine Or.inr (hl.deleted hpc hstatus hreaping hl.unique fun p => ?_)
      refine ⟨fun hp => ⟨?_, hp⟩, And.right⟩
      rintro rfl
      obtain ⟨i, hi, hpid⟩ := hp
      exact hnone i hi hpid
    · rw [heq] at hdel
      cases hdel
      exact Or.inr (hl.deleted hpc hstatus hreaping hl.unique.deleted fun p =>
        listed_deleted hl.unique hocc)
  | markStopped pid l' h hset =>
    have hreaping := reaping_top hf h
    rcases @job_set_state_pid _ hs.ok pid .ST nofun nofun with ⟨heq, -⟩ | ⟨i, hocc, rfl, heq⟩
    · rw [heq] at hset
      cases hset
    · rw [heq] at hset
      cases hset
      refine Or.inr (hl.quiet (fun p => listed_setState hocc nofun)
        (hl.unique.setState hocc nofun) (fun _ => rfl) (fun _ => Iff.rfl) (fun _ => Iff.rfl) nofun ?_)
      intro p status hne
      refine iff_of_false nofun ?_
      rw [hreaping]
      rintro ⟨⟩
      exact hne rfl
  | forward h =>
    exact Or.inr (hl.plain hpc.1 hpc.1 rfl rfl (fun _ => Iff.rfl) (reaping_none hf h nofun).symm)
  | unblock h =>
    exact Or.inr (hl.plain hpc.1 hpc.1 rfl rfl (fun _ => Iff.rfl) (reaping_none hf h nofun).symm)
  | ret h =>
    have hpc' : (if rest = [] then s.main.wake else s.main).Plain := by
      split
      · exact hpc.wake
      · exact hpc
    refine Or.inr (hl.plain hpc.1 hpc'.1 rfl rfl (fun _ => Iff.rfl) ?_)
    rw [reaping_none hf h nofun]
    exact hs.reaping_rest hf
  | deleteHalts | markHalts | forwardHalts => exact Or.inl ⟨_, rfl⟩

theorem Listing.world (hl : Listing s) (hs : Sound s) (h : WorldStep s s') :
    ListingOrGone s' := by
  cases h with
  | fatal => exact Or.inl ⟨_, rfl⟩
  | change pid c c' hchild =>
    have hlive : ∀ p, (Function.update s.children pid (some c') p).isSome =
        (s.children p).isSome := by
      intro p
      rcases eq_or_ne p pid with rfl | hne
      · simp [hchild]
      · simp [hne]
    exact Or.inr (hl.quiet (fun _ => Iff.rfl) hl.unique hlive (fun _ => Iff.rfl)
      (fun _ => Iff.rfl) hl.stopping fun _ _ _ => Iff.rfl)
  | arrive sig => exact Or.inr ⟨hl.kept, hl.found, hl.unique, hl.adding, hl.stopping, hl.dying⟩
  | deliver sig hsig hpending hmask hrun =>
    have hnone := hs.reaping_deliver hsig hmask
    exact Or.inr (hl.quiet (fun _ => Iff.rfl) hl.unique (fun _ => rfl) (fun _ => Iff.rfl)
      (fun _ => Iff.rfl) nofun fun _ _ _ => by rw [hnone]; rfl)

theorem ListingOrGone.step {a : Label} (hl : ListingOrGone s) (hs : Sound s) (h : s.Step a s') :
    ListingOrGone s' := by
  rcases hl with ⟨why, hend⟩ | hl
  · exact Or.inl (ended_step hend h)
  · cases a with
    | command c => exact Or.inr (hl.command h.1 h.2.2 h.2.1)
    | main => exact hl.mainStep hs h.1 h.2
    | handler =>
      obtain ⟨f, rest, hf, h⟩ := h
      exact hl.handlerStep hs hf h
    | world => exact hl.world hs h

theorem listing_init (h : tsh.init s) : Listing s := by
  obtain ⟨hlist, hmain, hnil, hchildren, -⟩ := h
  have hempty : ∀ i, ¬ s.list.Occupied i := by
    rw [hlist]
    exact fun i hi => hi rfl
  have hadding : ∀ pid, ¬ s.main.Adding pid := Main.not_adding _ hmain nofun
  refine ⟨?_, ?_, ?_, fun pid ha => absurd ha (hadding pid), ?_, ?_⟩
  · rintro pid ⟨i, hi, -⟩
    exact absurd hi (hempty i)
  · intro pid hlive
    rw [hchildren] at hlive
    cases hlive
  · intro i j hi
    exact absurd hi (hempty i)
  · rw [hnil]
    exact nofun
  · rw [hnil]
    exact nofun

theorem listing_reachable (h : tsh.Reachable s) : Sound s ∧ ListingOrGone s :=
  System.reachable_of_step (P := fun s => Sound s ∧ ListingOrGone s)
    (fun hinit => ⟨sound_init hinit, Or.inr (listing_init hinit)⟩)
    (fun ⟨hs, hl⟩ hstep => ⟨hs.step hstep, hl.step hs hstep⟩) h

/-- When the shell ends, so do its handlers. -/
theorem ended_nil (h : tsh.Reachable s) : ∀ why, s.main = .ended why → s.handlers = [] := by
  refine System.reachable_of_step (P := fun s => ∀ why, s.main = .ended why → s.handlers = []) ?_ ?_ h
  · rintro s ⟨-, -, hnil, -⟩ why -
    exact hnil
  · intro s a s' ih hstep why hend
    cases a with
    | command c =>
      obtain ⟨hpc, hnil, hstep⟩ := hstep
      cases hstep with
      | quit => rfl
      | _ => exact hnil
    | main =>
      obtain ⟨hnil, hstep⟩ := hstep
      cases hstep with
      | addJobHalts | targetHalts | announceHalts | setStateHalts | closeFails => rfl
      | _ => exact hnil
    | handler =>
      obtain ⟨f, rest, hf, hstep⟩ := hstep
      have hrun : s.main ≠ .ended why := by
        intro heq
        cases (ih why heq).symm.trans hf
      cases hstep with
      | deleteHalts | markHalts | forwardHalts => rfl
      | ret =>
        change (if rest = [] then s.main.wake else s.main) = _ at hend
        split at hend
        · exact absurd (Main.wake_ended.mp hend) hrun
        · exact absurd hend hrun
      | _ => exact absurd hend hrun
    | world =>
      cases hstep with
      | fatal => rfl
      | deliver sig _ _ _ hrun => exact absurd hend (hrun why)
      | _ => exact ih why hend

/-! ### The aborts -/

/-- The part of `eval` between `sigprocmask` and `sigprocmask` for a command that is no builtin. -/
def Main.Launching : Main → Prop
  | .fork _ _ | .forked _ _ _ | .announce _ | .waitTest | .suspended _ _ | .unblock _ => True
  | _ => False

/-- A step of the launch path or of a handler in which a helper calls `abort`. A failed `realloc`
    ends the shell with `_exit`. -/
def Aborts (s : Tsh) (a : Label) (s' : Tsh) : Prop :=
  s.Step a s' ∧ (a = .main ∧ s.main.Launching ∨ a = .handler) ∧
    ∃ e, s'.main = .ended (.halt e) ∧ e ≠ .realloc

/-- `add_job` is not called after a failed `fork`, and a child reported as stopped was not refused. -/
def Benign (s : Tsh) : Label → Prop
  | .main => ∀ pid state cmdline, s.main = .forked pid state cmdline → 0 < pid
  | .handler => ∀ f rest pid, s.handlers = f :: rest → f.pc = .reaped pid .stopped →
    ¬ Refused pid s.log
  | _ => True

/-- The launch path aborts at `add_job` only, and only for the `-1` of a failed `fork`. -/
theorem Sound.launch_halt (hs : Sound s) (h : MainStep s s') (hpc : s.main.Launching) {e : Halt}
    (he : s'.main = .ended (.halt e)) (hne : e ≠ .realloc) :
    ∃ pid state cmdline, s.main = .forked pid state cmdline ∧ pid ≤ 0 := by
  cases h with
  | addJobHalts state cmdline pid alloc e' h hadd =>
    refine ⟨pid, state, cmdline, h, ?_⟩
    obtain ⟨hno, hstate⟩ := hs.forked_launch h
    obtain rfl : e' = e := Ended.halt.inj (Main.ended.inj he)
    rcases add_job_cases hs.ok hstate (fun _ => hno) pid cmdline alloc with ⟨hpid, -⟩ |
      ⟨-, -, heq⟩ | ⟨-, -, heq⟩ | ⟨i, -, -, -, -, heq⟩
    · exact hpid
    · cases heq.symm.trans hadd
    · cases heq.symm.trans hadd
      exact absurd rfl hne
    · cases heq.symm.trans hadd
  | addJob state cmdline pid =>
    change (if state = .BG then Main.announce pid else .waitTest) = _ at he
    split at he
    · cases he
    · cases he
  | unblock close =>
    cases close with
    | true => cases he
    | false => cases he
  | targetHalts backg arg jid pid e h => exact (h ▸ hpc).elim
  | announceHalts backg arg jid₀ pid₀ jid pid e h => exact (h ▸ hpc).elim
  | setState backg pid l' h => exact (h ▸ hpc).elim
  | setStateHalts backg pid e h => exact (h ▸ hpc).elim
  | _ => cases he

/-- A handler aborts only for a child that is reported stopped and is not listed. -/
theorem Sound.handler_halt (hs : Sound s) (h : HandlerStep s f rest s') {e : Halt}
    (he : s'.main = .ended (.halt e)) (hrun : ∀ why, s.main ≠ .ended why) :
    ∃ pid, f.pc = .reaped pid .stopped ∧ ¬ s.list.Listed pid := by
  cases h with
  | deleteHalts pid status e' h hstatus hdel =>
    rcases delete_job_pid hs.ok pid with ⟨heq, -⟩ | ⟨i, -, -, heq⟩
    · cases heq.symm.trans hdel
    · cases heq.symm.trans hdel
  | markHalts pid e' h hset =>
    refine ⟨pid, h, ?_⟩
    rcases @job_set_state_pid _ hs.ok pid .ST nofun nofun with ⟨-, hnone⟩ | ⟨i, -, -, heq⟩
    · rintro ⟨i, hi, hpid⟩
      exact hnone i hi hpid
    · cases heq.symm.trans hset
  | forwardHalts e' h hfg hpid => exact absurd hpid (fg_job_pid hfg)
  | ret h =>
    change (if rest = [] then s.main.wake else s.main) = _ at he
    split at he
    · exact absurd (Main.wake_ended.mp he) (hrun _)
    · exact absurd he (hrun _)
  | _ => exact absurd he (hrun _)

/-- `add_job` aborts for the `-1` of a failed `fork`. -/
theorem Sound.forked_aborts (hs : Sound s) (hnil : s.handlers = []) {pid : ℤ} {state : JobState}
    {cmdline : Bytes} (h : s.main = .forked pid state cmdline) (hpid : pid ≤ 0) :
    Aborts s .main (s.finish (.halt .badPid)) := by
  obtain ⟨hno, hstate⟩ := hs.forked_launch h
  refine ⟨⟨hnil, .addJobHalts state cmdline pid true .badPid h ?_⟩, Or.inl ⟨rfl, h ▸ trivial⟩,
    _, rfl, nofun⟩
  rcases add_job_cases hs.ok hstate (fun _ => hno) pid cmdline true with ⟨-, heq⟩ |
    ⟨hpos, -⟩ | ⟨hpos, -⟩ | ⟨i, hpos, -⟩
  · exact heq
  · omega
  · omega
  · omega

/-- The handler aborts for a stopped child that is not listed. -/
theorem Sound.stopped_aborts (hs : Sound s) (hf : s.handlers = f :: rest) {pid : ℤ}
    (h : f.pc = .reaped pid .stopped) (hnone : ¬ s.list.Listed pid) :
    Aborts s .handler (s.finish (.halt (.noSuchJob "job_set_state" 0))) := by
  refine ⟨⟨f, rest, hf, .markHalts pid _ h ?_⟩, Or.inr rfl, _, rfl, nofun⟩
  rcases @job_set_state_pid _ hs.ok pid .ST nofun nofun with ⟨heq, -⟩ | ⟨i, hocc, hpid, -⟩
  · exact heq
  · exact absurd ⟨i, hocc, hpid⟩ hnone

/-- A child reported stopped is listed iff `add_job` did not refuse it. -/
theorem Listing.stopped_listed (hl : Listing s) (hs : Sound s) (hf : s.handlers = f :: rest)
    {pid : ℤ} (h : f.pc = .reaped pid .stopped) :
    s.list.Listed pid ↔ ¬ Refused pid s.log := by
  have hpc : s.main.Plain := Main.plain_of_open (hs.open_main hf)
  refine ⟨fun hp => (hl.kept pid hp).1, fun href => ?_⟩
  exact hl.found pid (hl.stopping pid (reaping_top hf h)) (hpc.1 pid) href

theorem aborts_iff {a : Label} (h : tsh.Reachable s) :
    (∃ s', Aborts s a s') ↔ ¬ Benign s a := by
  obtain ⟨hs, hl⟩ := listing_reachable h
  cases a with
  | command c =>
    refine iff_of_false ?_ (not_not.mpr trivial)
    rintro ⟨s', -, ⟨hlabel, -⟩ | hlabel, -⟩
    · cases hlabel
    · cases hlabel
  | world =>
    refine iff_of_false ?_ (not_not.mpr trivial)
    rintro ⟨s', -, ⟨hlabel, -⟩ | hlabel, -⟩
    · cases hlabel
    · cases hlabel
  | main =>
    constructor
    · rintro ⟨s', ⟨-, hstep⟩, hwho, e, he, hne⟩ hbenign
      have hpc := (hwho.resolve_right nofun).2
      obtain ⟨pid, state, cmdline, hforked, hpid⟩ := hs.launch_halt hstep hpc he hne
      have hpos := hbenign pid state cmdline hforked
      omega
    · intro hbad
      obtain ⟨pid, state, cmdline, hforked, hpid⟩ :
          ∃ pid state cmdline, s.main = .forked pid state cmdline ∧ ¬ 0 < pid := by
        simpa [Benign] using hbad
      have hnil : s.handlers = [] := (hs.main (hforked ▸ trivial)).1
      exact ⟨_, hs.forked_aborts hnil hforked (by omega)⟩
  | handler =>
    have hlisting : ∀ f rest, s.handlers = f :: rest →
        Listing s ∧ ∀ why, s.main ≠ .ended why := by
      intro f rest hf
      have hrun : ∀ why, s.main ≠ .ended why := by
        intro why hend
        cases (ended_nil h why hend).symm.trans hf
      exact ⟨hl.resolve_left fun ⟨why, hend⟩ => hrun why hend, hrun⟩
    constructor
    · rintro ⟨s', ⟨f, rest, hf, hstep⟩, -, e, he, -⟩ hbenign
      obtain ⟨hl, hrun⟩ := hlisting f rest hf
      obtain ⟨pid, hpc, hnone⟩ := hs.handler_halt hstep he hrun
      exact hnone ((hl.stopped_listed hs hf hpc).mpr (hbenign f rest pid hf hpc))
    · intro hbad
      obtain ⟨f, rest, hf, pid, hpc, href⟩ :
          ∃ f rest, s.handlers = f :: rest ∧ ∃ pid, f.pc = .reaped pid .stopped ∧
            Refused pid s.log := by
        simpa [Benign] using hbad
      obtain ⟨hl, -⟩ := hlisting f rest hf
      exact ⟨_, hs.stopped_aborts hf hpc fun hp =>
        (hl.stopped_listed hs hf hpc).mp hp href⟩

end Step

/-- In a run whose steps are all benign, no step of the launch path or of a handler aborts; and in
    every reachable state such a step can abort iff it is not benign. -/
theorem aborts_iff_not_benign {s : Tsh} {a : Label} :
    ((tsh.restrict Benign).Reachable s → ∀ s', (tsh.restrict Benign).step s a s' →
      ¬ Aborts s a s') ∧
    (tsh.Reachable s → ((∃ s', Aborts s a s') ↔ ¬ Benign s a)) := by
  refine ⟨fun h s' ⟨hbenign, _⟩ habort => ?_, aborts_iff⟩
  exact (aborts_iff h.of_restrict).mp ⟨s', habort⟩ hbenign

/-! ### A failed fork -/

def forkFailed : Tsh := launching.goto (.forked (-1) .FG [])

theorem forkFailed_reachable : tsh.Reachable forkFailed := by
  have hinit : tsh.init fresh := ⟨rfl, rfl, rfl, fun _ => rfl, rfl⟩
  have hlaunch : tsh.step fresh (.command (.launch .FG [])) launching :=
    ⟨rfl, rfl, .launch .FG [] (Or.inl rfl)⟩
  have hfork : tsh.step launching .main forkFailed := ⟨rfl, .forkFails .FG [] rfl⟩
  exact ((System.reachable_init hinit).step hlaunch).step hfork

theorem aborts_iff_not_benign_forkFailed : ∃ s', Aborts forkFailed .main s' := by
  refine (aborts_iff_not_benign.2 forkFailed_reachable).mpr fun hbenign => ?_
  have hpos := hbenign (-1) .FG [] rfl
  omega

/-- `fork` fails, and the shell aborts. -/
theorem launch_aborts : ¬ ∀ {s a s'}, tsh.Reachable s → ¬ Aborts s a s' := by
  intro hnever
  refine @hnever forkFailed .main (forkFailed.finish (.halt .badPid)) forkFailed_reachable ?_
  exact ⟨⟨rfl, .addJobHalts .FG [] (-1) true .badPid rfl rfl⟩, Or.inl ⟨rfl, trivial⟩, _, rfl, nofun⟩

end Labs.Shell
