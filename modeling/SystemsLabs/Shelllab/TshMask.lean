import SystemsLabs.Shelllab.TshSound

/-! @lab shelllab | file:tsh.c, tsh_helper.c (check_blocked) | scheme:transition | main result:the
    signal mask

    Every helper of the job list that `check_blocked` guards is called with the three signals
    blocked, and the mask is back when `eval` or a handler returns. Each frame of the stack saved the
    mask it interrupted, so the masks form a chain (`Frames`): the frame on top tells the mask in
    force, what it saved is the mask the frame below left, and the last of them is the one of `main`. -/

namespace Labs.Shell
open Schemes

/-- The helpers that run `check_blocked`. -/
inductive Helper where
  | job_exists
  | add_job
  | delete_job
  | fg_job
  | job_from_pid
  | job_get_state
  | job_set_state
  | job_get_pid
  | job_get_cmdline
  | list_jobs
  deriving DecidableEq, Repr

/-- The signals `check_blocked` warns about, each with a `SIGTRAP`. -/
def check_blocked (currmask : Mask) : List Signal :=
  [.SIGCHLD, .SIGINT, .SIGTSTP].filter (· ∉ currmask)

/-- The helpers that `main`, `eval` and `builtin_back_fore` may call in the step from here. -/
def Main.calls : Main → List Helper
  | .forked _ _ _ => [.add_job]
  | .announce _ => [.job_from_pid]
  | .waitTest => [.fg_job]
  | .backFore true _ => [.job_exists, .job_get_pid, .job_from_pid, .job_get_cmdline]
  | .backFore false _ => [.job_exists, .job_get_pid, .job_from_pid]
  | .resume _ _ => [.job_from_pid, .job_set_state]
  | .listing _ => [.list_jobs]
  | _ => []

/-- The helpers that a handler may call in the step from here. -/
def HandlerPc.calls : HandlerPc → List Helper
  | .reaped _ .stopped => [.job_from_pid, .job_set_state]
  | .reaped _ _ => [.job_from_pid, .delete_job]
  | .forwarding => [.fg_job, .job_get_pid]
  | _ => []

/-- The helpers that whoever runs may call next. -/
def Tsh.calls (s : Tsh) : List Helper :=
  match s.handlers with
  | [] => s.main.calls
  | f :: _ => f.pc.calls

theorem check_blocked_eq_nil {currmask : Mask} (h : blockMask ⊆ currmask) :
    check_blocked currmask = [] := by
  rw [check_blocked, List.filter_eq_nil_iff]
  intro sig hsig
  have hmem : sig ∈ blockMask := by simpa [blockMask] using hsig
  simpa using h hmem

theorem Main.calls_blocked {pc : Main} (h : pc.calls ≠ []) : pc.Blocked := by
  cases pc with
  | prompt | suspended | again | closing | ended => exact absurd rfl h
  | _ => trivial

theorem HandlerPc.calls_blocked {pc : HandlerPc} (h : pc.calls ≠ []) : pc.Blocked := by
  cases pc with
  | entered | left => exact absurd rfl h
  | _ => trivial

/-! ### The chain of masks -/

/-- The mask while a handler runs: as on entry, or with the blocked signals added. -/
def Handler.Masked (f : Handler) (m : Mask) : Prop :=
  match f.pc with
  | .entered | .left => m = insert f.sig f.saved
  | _ => m = insert f.sig f.saved ∪ blockMask ∧ f.prev = insert f.sig f.saved

/-- The mask while no handler runs, for an `eval` entered with the mask `e`. -/
def Main.Masked (e prev m : Mask) : Main → Prop
  | .prompt | .closing => m = e
  | .again => m = e ∧ prev = e
  | .suspended old _ => m = e ∧ prev = e ∧ old = e ∪ blockMask
  | .ended _ => True
  | _ => m = e ∪ blockMask ∧ prev = e

/-- Each frame has its mask, and the one below has the mask that was saved. -/
def Frames (base : Mask → Prop) : Mask → List Handler → Prop
  | m, [] => base m
  | m, f :: rest => f.Masked m ∧ Frames base f.saved rest

/-- The masks of the whole stack, for a shell that calls `eval` with the mask `e`. -/
def Tsh.Masked (e : Mask) (s : Tsh) : Prop :=
  Frames (fun m => s.main.Masked e s.prev m) s.mask s.handlers

section Step
variable {e : Mask} {s s' : Tsh} {f : Handler} {rest : List Handler} {c : Command}

theorem Frames.mono {base base' : Mask → Prop} (h : ∀ m, base m → base' m) :
    ∀ {m : Mask} {hs : List Handler}, Frames base m hs → Frames base' m hs
  | m, [], hm => h m hm
  | _, _ :: _, ⟨hf, hrest⟩ => ⟨hf, hrest.mono h⟩

theorem Tsh.Masked.command (hm : s.Masked e) (hpc : s.main = .prompt) (hnil : s.handlers = [])
    (h : CommandStep s c s') : s'.Masked e := by
  have hmask : s.mask = e := by
    rw [Tsh.Masked, hnil, hpc] at hm
    exact hm
  cases h with
  | nothing => exact hm
  | openFails => exact hm
  | quit => trivial
  | _ =>
    change Frames _ _ s.handlers
    rw [hnil]
    exact ⟨congrArg (· ∪ blockMask) hmask, hmask⟩

theorem Tsh.Masked.mainStep (hm : s.Masked e) (hnil : s.handlers = []) (h : MainStep s s') :
    s'.Masked e := by
  have hmask : s.main.Masked e s.prev s.mask := by
    rw [Tsh.Masked, hnil] at hm
    exact hm
  suffices hbase : s'.handlers = [] ∧ s'.main.Masked e s'.prev s'.mask by
    rw [Tsh.Masked, hbase.1]
    exact hbase.2
  cases h with
  | forkOk state cmdline pid h | forkFails state cmdline h | announce pid h | listed close h
  | waited h | sendCont backg arg jid₀ pid₀ jid pid h =>
    rw [h] at hmask
    exact ⟨hnil, hmask⟩
  | addJob state cmdline pid alloc l' jid h =>
    rw [h] at hmask
    refine ⟨hnil, ?_⟩
    cases state with
    | _ => exact hmask
  | suspend h =>
    rw [h] at hmask
    exact ⟨hnil, hmask.2, hmask.2, hmask.1⟩
  | wake old h =>
    rw [h] at hmask
    exact ⟨hnil, hmask.2.2, hmask.2.1⟩
  | unblock close h =>
    rw [h] at hmask
    refine ⟨hnil, ?_⟩
    cases close with
    | _ => exact hmask.2
  | refuse backg arg jid pid why h =>
    rw [h] at hmask
    exact ⟨hnil, hmask.2, hmask.2⟩
  | setState backg pid l' h =>
    rw [h] at hmask
    refine ⟨hnil, ?_⟩
    cases backg with
    | _ => exact hmask
  | again h =>
    rw [h] at hmask
    exact ⟨hnil, hmask.2⟩
  | closed h =>
    rw [h] at hmask
    exact ⟨hnil, hmask⟩
  | addJobHalts | targetHalts | announceHalts | setStateHalts | closeFails => exact ⟨rfl, trivial⟩

/-- The handler on top goes on between the same two masks. -/
theorem Tsh.Masked.handle (hm : s.Masked e) (hf : s.handlers = f :: rest) {g : Handler}
    (hmain : s'.main = s.main) (hprev : s'.prev = s.prev) (hhandlers : s'.handlers = g :: rest)
    (hsaved : g.saved = f.saved) (hg : f.Masked s.mask → g.Masked s'.mask) : s'.Masked e := by
  rw [Tsh.Masked, hf] at hm
  rw [Tsh.Masked, hhandlers, hmain, hprev]
  exact ⟨hg hm.1, hsaved ▸ hm.2⟩

theorem Main.Masked.wake {prev m : Mask} {pc : Main} (h : pc.Masked e prev m) :
    pc.wake.Masked e prev m := by
  cases pc with
  | _ => exact h

theorem Tsh.Masked.handlerStep (hm : s.Masked e) (hf : s.handlers = f :: rest)
    (h : HandlerStep s f rest s') : s'.Masked e := by
  have htop : f.Masked s.mask := by
    rw [Tsh.Masked, hf] at hm
    exact hm.1
  cases h with
  | block h =>
    refine hm.handle hf rfl rfl rfl rfl fun htop => ?_
    rw [Handler.Masked, h] at htop
    obtain ⟨sig, saved, prev, pc⟩ := f
    cases sig with
    | _ => exact ⟨congrArg (· ∪ blockMask) htop, htop⟩
  | reap pid killed h | reportStop pid h | drained h | forward h | deleteJob pid status l' found h
  | markStopped pid l' h =>
    refine hm.handle hf rfl rfl rfl rfl fun htop => ?_
    rw [Handler.Masked, h] at htop
    exact htop
  | unblock h =>
    refine hm.handle hf rfl rfl rfl rfl fun htop => ?_
    rw [Handler.Masked, h] at htop
    exact htop.2
  | ret h =>
    rw [Tsh.Masked, hf] at hm
    change Frames (fun m => (if rest = [] then s.main.wake else s.main).Masked e s.prev m) f.saved
      rest
    refine hm.2.mono fun m hbase => ?_
    split
    · exact hbase.wake
    · exact hbase
  | deleteHalts | markHalts | forwardHalts => trivial

theorem Tsh.Masked.world (hm : s.Masked e) (h : WorldStep s s') : s'.Masked e := by
  cases h with
  | fatal => trivial
  | change => exact hm
  | arrive => exact hm
  | deliver sig => exact ⟨rfl, hm⟩

theorem Tsh.Masked.step {a : Label} (hm : s.Masked e) (h : s.Step a s') : s'.Masked e := by
  cases a with
  | command c => exact hm.command h.1 h.2.1 h.2.2
  | main => exact hm.mainStep h.1 h.2
  | handler =>
    obtain ⟨f, rest, hf, h⟩ := h
    exact hm.handlerStep hf h
  | world => exact hm.world h

theorem masked_reachable (h : tsh.Reachable s) : ∃ e, s.Masked e := by
  refine System.reachable_of_step (P := fun s => ∃ e, s.Masked e) ?_ ?_ h
  · rintro s ⟨-, hmain, hnil, -⟩
    refine ⟨s.mask, ?_⟩
    rw [Tsh.Masked, hnil, hmain]
    rfl
  · rintro s a s' ⟨e, hm⟩ hstep
    exact ⟨e, hm.step hstep⟩

/-- `main` is about to read a command line, or `eval` has returned from one. -/
def Tsh.Idle (s : Tsh) : Prop := s.main = .prompt ∧ s.handlers = []

theorem Tsh.Masked.idle (hm : s.Masked e) (h : s.Idle) : s.mask = e := by
  rw [Tsh.Masked, h.2, h.1] at hm
  exact hm

theorem Tsh.Masked.outside (hm : s.Masked e) (hf : s.handlers = f :: rest)
    (hpc : f.pc = .entered ∨ f.pc = .left) : s.mask = insert f.sig f.saved := by
  rw [Tsh.Masked, hf] at hm
  have htop := hm.1
  rcases hpc with hpc | hpc
  · rw [Handler.Masked, hpc] at htop
    exact htop
  · rw [Handler.Masked, hpc] at htop
    exact htop

/-! ### One call of a handler -/

/-- All that can happen to the stack: the process ends, a frame is pushed or popped, or the frame on
    top goes on with its signal and what it saved. -/
theorem stack_step {a : Label} (h : s.Step a s') :
    s'.handlers = [] ∨ s'.handlers = s.handlers ∨ (∃ f, s'.handlers = f :: s.handlers) ∨
      (∃ f, s.handlers = f :: s'.handlers) ∨ ∃ f g rest, s.handlers = f :: rest ∧
        s'.handlers = g :: rest ∧ g.sig = f.sig ∧ g.saved = f.saved := by
  cases a with
  | command c =>
    obtain ⟨-, -, h⟩ := h
    cases h with
    | quit => exact Or.inl rfl
    | _ => exact Or.inr (Or.inl rfl)
  | main =>
    obtain ⟨-, h⟩ := h
    cases h with
    | addJobHalts | targetHalts | announceHalts | setStateHalts | closeFails => exact Or.inl rfl
    | _ => exact Or.inr (Or.inl rfl)
  | handler =>
    obtain ⟨f, rest, hf, h⟩ := h
    cases h with
    | deleteHalts | markHalts | forwardHalts => exact Or.inl rfl
    | ret => exact Or.inr (Or.inr (Or.inr (Or.inl ⟨f, hf⟩)))
    | _ => exact Or.inr (Or.inr (Or.inr (Or.inr ⟨f, _, rest, hf, rfl, rfl, rfl⟩)))
  | world =>
    cases h with
    | fatal => exact Or.inl rfl
    | deliver => exact Or.inr (Or.inr (Or.inl ⟨_, rfl⟩))
    | _ => exact Or.inr (Or.inl rfl)

/-- The steps until a call of a handler returns: its frame is on the stack, over the frames `rest`. -/
def during (rest : List Handler) : System Tsh Label :=
  tsh.restrict fun s _ => rest.length < s.handlers.length

/-- Until it returns, a call keeps its signal and what it saved. -/
def SameCall (f : Handler) (rest : List Handler) (s : Tsh) : Prop :=
  s.handlers.length ≤ rest.length ∨
    ∃ above g, s.handlers = above ++ g :: rest ∧ g.sig = f.sig ∧ g.saved = f.saved

theorem SameCall.step {a : Label} (hc : SameCall f rest s) (h : (during rest).step s a s') :
    SameCall f rest s' := by
  obtain ⟨hdeep, h⟩ := h
  obtain ⟨above, g, hstack, hsig, hsaved⟩ := hc.resolve_left (by omega)
  rcases stack_step h with hnil | hsame | ⟨k, hpush⟩ | ⟨k, hpop⟩ |
    ⟨k, k', below, htop, htop', hsig', hsaved'⟩
  · exact Or.inl (by simp [hnil])
  · exact Or.inr ⟨above, g, hsame.trans hstack, hsig, hsaved⟩
  · exact Or.inr ⟨k :: above, g, by rw [hpush, hstack]; rfl, hsig, hsaved⟩
  · rw [hstack] at hpop
    cases above with
    | nil =>
      obtain ⟨-, hrest⟩ := List.cons.inj hpop
      exact Or.inl (by rw [hrest])
    | cons k₀ above =>
      obtain ⟨-, hrest⟩ := List.cons.inj hpop
      exact Or.inr ⟨above, g, hrest.symm, hsig, hsaved⟩
  · rw [hstack] at htop
    cases above with
    | nil =>
      obtain ⟨rfl, rfl⟩ := List.cons.inj htop
      exact Or.inr ⟨[], k', htop', hsig'.trans hsig, hsaved'.trans hsaved⟩
    | cons k₀ above =>
      obtain ⟨-, rfl⟩ := List.cons.inj htop
      exact Or.inr ⟨k' :: above, g, htop', hsig, hsaved⟩

theorem SameCall.run {as : List Label} (hf : s.handlers = f :: rest)
    (hrun : (during rest).Run s as s') {g : Handler} (hg : s'.handlers = g :: rest) :
    g.sig = f.sig ∧ g.saved = f.saved := by
  have hc : SameCall f rest s' :=
    hrun.preserves (P := SameCall f rest) SameCall.step (Or.inr ⟨[], f, hf, rfl, rfl⟩)
  rcases hc with hshort | ⟨above, g', hstack, hsame⟩
  · rw [hg, List.length_cons] at hshort
    omega
  · have hlen := congrArg List.length (hg.symm.trans hstack)
    cases above with
    | nil =>
      obtain rfl : g = g' := (List.cons.inj (hg.symm.trans hstack)).1
      exact hsame
    | cons k above =>
      simp only [List.length_cons, List.length_append] at hlen
      omega

/-- Helpers are called under the mask, a run from one prompt to another ends with the mask it started
    with, and a handler returns with the mask it was entered with. -/
theorem mask_discipline (h : tsh.Reachable s) :
    (s.calls ≠ [] → blockMask ⊆ s.mask ∧ check_blocked s.mask = []) ∧
    (∀ as s', s.Idle → tsh.Run s as s' → s'.Idle → s'.mask = s.mask) ∧
    ∀ f rest as s' g, s.handlers = f :: rest → f.pc = .entered → (during rest).Run s as s' →
      s'.handlers = g :: rest → g.pc = .left → s'.mask = s.mask := by
  have hs := sound_reachable h
  obtain ⟨e, hm⟩ := masked_reachable h
  refine ⟨fun hcalls => ?_, fun as s' hidle hrun hidle' => ?_, ?_⟩
  · have hblocked : blockMask ⊆ s.mask := by
      unfold Tsh.calls at hcalls
      split at hcalls
      · exact (hs.main (Main.calls_blocked hcalls)).2
      · rename_i f rest hf
        exact hs.top f rest hf (HandlerPc.calls_blocked hcalls)
    exact ⟨hblocked, check_blocked_eq_nil hblocked⟩
  · have hm' : s'.Masked e := hrun.preserves (P := Tsh.Masked e) Tsh.Masked.step hm
    rw [hm.idle hidle, hm'.idle hidle']
  · intro f rest as s' g hf hpc hrun hg hpc'
    have hm' : s'.Masked e :=
      hrun.preserves (P := Tsh.Masked e) (fun hm hstep => hm.step hstep.2) hm
    obtain ⟨hsig, hsaved⟩ := SameCall.run hf hrun hg
    rw [hm'.outside hg (Or.inr hpc'), hm.outside hf (Or.inl hpc), hsig, hsaved]

end Step

/-- `eval` calls `fg_job` with the three signals blocked. -/
theorem mask_discipline_testing : blockMask ⊆ testing.mask ∧ check_blocked testing.mask = [] :=
  (mask_discipline testing_reachable).1 (by decide)

end Labs.Shell
