import SystemsLabs.Shelllab.JobTable
import SystemsLabs.Schemes.Transition

/-! @lab shelllab | file:tsh_helper.c (job list) | scheme:transition | main result:when there is room

    The job list under any sequence of `add_job` and `delete_job`. The next job ID is one past the
    highest in use, so a slot freed below it is not used again while a higher job lives: `add_job`
    reports a full list as soon as job 64 exists, however few jobs there are beside it. -/

namespace Labs.Shell
open Schemes

namespace JobList

/-- How many jobs the list holds. -/
def count (l : JobList) : ℕ := ((List.finRange MAXJOBS).filter fun i => l.Occupied i).length

/-- The states `add_job` lets a job start in. -/
def Permitted (l : JobList) (state : JobState) : Prop :=
  (state = .FG ∧ l.fg_job = 0) ∨ state = .BG ∨ state = .ST

instance (l : JobList) (state : JobState) : Decidable (l.Permitted state) :=
  inferInstanceAs (Decidable (_ ∨ _))

/-- From `l` to `l'` exactly the job `jid` appears, at an ID that was not in use. -/
def Appears (l l' : JobList) (jid pid : ℤ) (state : JobState) (text : Bytes) : Prop :=
  ∃ i, jid = jidOf i ∧ ¬ l.Occupied i ∧ l'.job_list i = ⟨pid, jid, state, some text⟩ ∧
    ∀ j, j ≠ i → l'.job_list j = l.job_list j

/-- With room for another job the call adds one, and it returns 0 only without. -/
def Capacity (l : JobList) (pid : ℤ) (state : JobState) (text : Bytes) (alloc : Bool) : Prop :=
  (l.count < MAXJOBS → ∃ l' jid, l.add_job pid state (some text) alloc = .ok (l', jid) ∧ jid ≠ 0 ∧
    l.Appears l' jid pid state text) ∧
  ∀ l', l.add_job pid state (some text) alloc = .ok (l', 0) → l' = l ∧ l.count = MAXJOBS

end JobList

/-! ### Sequences of calls -/

/-- A call that changes the list; `alloc`: `realloc` succeeds. -/
inductive JobCall where
  | add (pid : ℤ) (state : JobState) (cmdline : Option Bytes) (alloc : Bool)
  | delete (jid : ℤ)

/-- From `init_job_list` on. A call that aborts the shell leaves no list. -/
def jobLists : System JobList JobCall where
  init l := l = init_job_list
  step l c l' :=
    match c with
    | .add pid state cmdline alloc => ∃ jid, l.add_job pid state cmdline alloc = .ok (l', jid)
    | .delete jid => ∃ found, l.delete_job jid = .ok (l', found)

namespace JobList
variable {l l' : JobList} {i : Fin MAXJOBS} {pid jid : ℤ} {state : JobState} {text : Bytes}
  {alloc : Bool}

theorem Permitted.ne_undef (h : l.Permitted state) : state ≠ .UNDEF := by
  rintro rfl
  simp [Permitted] at h

theorem Permitted.foreground (h : l.Permitted state) : state = .FG → l.NoForeground := by
  rintro rfl
  rcases h with ⟨-, hfg⟩ | hbg | hst
  · exact fg_job_eq_zero.mp hfg
  · cases hbg
  · cases hst

/-- A call of `add_job` that returns had arguments it accepts. -/
theorem add_job_returns {cmdline : Option Bytes} {r : JobList × ℤ}
    (h : l.add_job pid state cmdline alloc = .ok r) :
    l.Permitted state ∧ ∃ text, cmdline = some text := by
  unfold add_job at h
  split at h
  · split at h
    · cases h
    · cases h
  · rename_i hstate
    refine ⟨not_not.mp hstate, ?_⟩
    cases cmdline with
    | none =>
      split at h
      · cases h
      · cases h
    | some text => exact ⟨text, rfl⟩

theorem Ok.step {c : JobCall} (hok : l.Ok) (hstep : jobLists.step l c l') : l'.Ok := by
  cases c with
  | add pid state cmdline alloc =>
    obtain ⟨jid, hrun⟩ := hstep
    obtain ⟨hperm, text, rfl⟩ := add_job_returns hrun
    rcases add_job_cases hok hperm.ne_undef hperm.foreground pid text alloc with
      ⟨-, h⟩ | ⟨-, -, h⟩ | ⟨-, -, h⟩ | ⟨i, hpid, -, hnext, -, h⟩
    · rw [h] at hrun
      cases hrun
    · rw [h] at hrun
      cases hrun
      exact hok
    · rw [h] at hrun
      cases hrun
    · rw [h] at hrun
      cases hrun
      exact hok.added hnext hpid hperm.ne_undef hperm.foreground
  | delete jid =>
    obtain ⟨found, hrun⟩ := hstep
    rcases em (l.job_exists jid = true) with hex | hno
    · obtain ⟨i, rfl, hi⟩ := job_exists_cases hex
      rw [delete_job_jidOf hi] at hrun
      cases hrun
      exact hok.deleted
    · rw [delete_job, if_neg hno] at hrun
      cases hrun
      exact hok

theorem reachable_ok (h : jobLists.Reachable l) : l.Ok :=
  System.reachable_of_step (by rintro l rfl; exact ok_init) Ok.step h

/-! ### Counting -/

theorem count_le (l : JobList) : l.count ≤ MAXJOBS := by
  have hle := List.length_filter_le (fun i => decide (l.Occupied i)) (List.finRange MAXJOBS)
  rwa [List.length_finRange] at hle

theorem count_eq : l.count = MAXJOBS ↔ ∀ i, l.Occupied i := by
  have hall := List.length_filter_eq_length_iff (l := List.finRange MAXJOBS)
    (p := fun i => decide (l.Occupied i))
  rw [List.length_finRange] at hall
  simpa [count] using hall

/-- The slot of the highest job ID. -/
def topSlot : Fin MAXJOBS := ⟨63, by decide⟩

theorem jidOf_topSlot : jidOf topSlot = MAXJOBS := rfl

/-- The counter has run out exactly when the highest job ID is in use. -/
theorem Ok.exhausted (hok : l.Ok) : l.nextjid > MAXJOBS ↔ l.job_exists MAXJOBS = true := by
  rw [← jidOf_topSlot, job_exists_jidOf]
  constructor
  · intro hbig
    rcases hok.top with ⟨hone, -⟩ | ⟨i, hi, hnext⟩
    · rw [hone] at hbig
      exact absurd hbig (by decide)
    · have hlt : i.val < 64 := i.isLt
      have hval : jidOf topSlot = 64 := rfl
      have htop : i = topSlot := by
        apply Fin.ext
        change i.val = 63
        rw [hnext, hval, jidOf] at hbig
        omega
      exact htop ▸ hi
  · exact hok.below topSlot

/-- `add_job` where job 64 does not exist and the allocation succeeds. -/
theorem Ok.add_room (hok : l.Ok) (hpid : 0 < pid) (hperm : l.Permitted state)
    (hroom : l.job_exists MAXJOBS = false) (text : Bytes) :
    ∃ i, l.add_job pid state (some text) true = .ok (l.added i pid state text, jidOf i) ∧
      ¬ l.Occupied i ∧ l.nextjid = jidOf i := by
  rcases add_job_cases hok hperm.ne_undef hperm.foreground pid text true with
    ⟨hneg, -⟩ | ⟨-, hbig, -⟩ | ⟨-, halloc, -⟩ | ⟨i, -, -, hnext, hfree, hrun⟩
  · exact absurd hpid (not_lt.mpr hneg)
  · rw [hok.exhausted.mp hbig] at hroom
    cases hroom
  · cases halloc
  · exact ⟨i, hrun, hfree, hnext⟩

theorem appears_added (hfree : ¬ l.Occupied i) :
    l.Appears (l.added i pid state text) (jidOf i) pid state text :=
  ⟨i, rfl, hfree, by simp [added], fun j hj => by simp [added, hj]⟩

/-- On every list the calls can make, `add_job` has room for a further job iff job 64 does not exist,
    and `realloc` succeeds; a list of 64 jobs it reports as full. -/
theorem add_job_capacity (h : jobLists.Reachable l) (hpid : 0 < pid) (hperm : l.Permitted state)
    (text : Bytes) (alloc : Bool) : l.Capacity pid state text alloc ↔
      l.count = MAXJOBS ∨ (l.job_exists MAXJOBS = false ∧ alloc = true) := by
  have hok := reachable_ok h
  constructor
  · rintro ⟨hroom, hfull⟩
    rcases Nat.lt_or_eq_of_le l.count_le with hlt | heq
    · obtain ⟨l', jid, hrun, hjid, -⟩ := hroom hlt
      rcases add_job_cases hok hperm.ne_undef hperm.foreground pid text alloc with
        ⟨-, hstop⟩ | ⟨-, -, hzero⟩ | ⟨-, -, hstop⟩ | ⟨i, -, halloc, hnext, -, -⟩
      · rw [hstop] at hrun
        cases hrun
      · rw [hzero] at hrun
        cases hrun
        exact absurd rfl hjid
      · rw [hstop] at hrun
        cases hrun
      · refine Or.inr ⟨?_, halloc⟩
        rw [Bool.eq_false_iff]
        intro hex
        have hbig := hok.exhausted.mpr hex
        have hi : i.val < MAXJOBS := i.isLt
        rw [hnext, jidOf] at hbig
        omega
    · exact Or.inl heq
  · rintro (heq | ⟨hroom, rfl⟩)
    · refine ⟨fun hlt => absurd heq hlt.ne, fun l' hzero => ⟨?_, heq⟩⟩
      rcases add_job_cases hok hperm.ne_undef hperm.foreground pid text alloc with
        ⟨-, hstop⟩ | ⟨-, -, hsame⟩ | ⟨-, -, hstop⟩ | ⟨i, -, -, -, hfree, -⟩
      · rw [hstop] at hzero
        cases hzero
      · rw [hsame] at hzero
        cases hzero
        rfl
      · rw [hstop] at hzero
        cases hzero
      · exact absurd (count_eq.mp heq i) hfree
    · obtain ⟨i, hrun, hfree, -⟩ := hok.add_room hpid hperm hroom text
      refine ⟨fun _ => ⟨_, _, hrun, (jidOf_pos i).ne', appears_added hfree⟩, fun l' hzero => ?_⟩
      rw [hrun] at hzero
      exact absurd (Prod.mk.inj (Except.ok.inj hzero)).2 (jidOf_pos i).ne'

theorem add_job_capacity_init : init_job_list.Capacity 1 .FG [108, 115] true :=
  (add_job_capacity (System.reachable_init rfl) (by decide) (by decide) _ _).mpr
    (Or.inr ⟨by decide, rfl⟩)

/-- Additions only fill the slots from the first one on. -/
theorem exists_filled (n : ℕ) : n ≤ MAXJOBS →
    ∃ l, jobLists.Reachable l ∧ ∀ i, l.Occupied i ↔ i.val < n := by
  induction n with
  | zero =>
    intro _
    refine ⟨init_job_list, System.reachable_init rfl, fun i => ?_⟩
    exact ⟨fun hi => absurd rfl hi, fun hi => absurd hi (Nat.not_lt_zero _)⟩
  | succ n ih =>
    intro hn
    obtain ⟨l, hreach, hocc⟩ := ih (Nat.le_of_succ_le hn)
    have hok := reachable_ok hreach
    have hroom : l.job_exists MAXJOBS = false := by
      rw [Bool.eq_false_iff, ← jidOf_topSlot]
      intro hex
      have hlt : 63 < n := (hocc topSlot).mp (job_exists_jidOf.mp hex)
      exact absurd hn (by unfold MAXJOBS; omega)
    have hpid : (0 : ℤ) < n + 1 := by omega
    have hperm : l.Permitted .BG := Or.inr (Or.inl rfl)
    obtain ⟨i, hrun, hfree, hnext⟩ := hok.add_room hpid hperm hroom []
    refine ⟨_, hreach.step (a := .add (n + 1) .BG (some []) true) ⟨_, hrun⟩, fun j => ?_⟩
    have hval : i.val = n := by
      rcases Nat.lt_trichotomy i.val n with hlt | heq | hgt
      · exact absurd ((hocc i).mpr hlt) hfree
      · exact heq
      · -- The slots below the counter end at the highest job.
        rcases hok.top with ⟨hone, -⟩ | ⟨k, hk, hnext'⟩
        · rw [hone, jidOf] at hnext
          omega
        · have hk' := (hocc k).mp hk
          rw [hnext', jidOf, jidOf] at hnext
          omega
    rw [occupied_added (by simp), hocc, Fin.ext_iff, hval]
    omega

/-- After 64 additions job 1 is deleted: 63 jobs are left, and the next addition is refused. -/
theorem hole_unused : ∃ l, jobLists.Reachable l ∧ l.count < MAXJOBS ∧
    l.add_job 65 .BG (some [108, 115]) true = .ok (l, 0) ∧
    ¬ l.Capacity 65 .BG [108, 115] true := by
  obtain ⟨l, hreach, hocc⟩ := exists_filled MAXJOBS (le_refl _)
  have hfirst : l.Occupied ⟨0, by decide⟩ := (hocc _).mpr (by decide)
  have htop : (l.deleted ⟨0, by decide⟩).Occupied topSlot :=
    occupied_deleted.mpr ⟨by decide, (hocc _).mpr (by decide)⟩
  have hreach' : jobLists.Reachable (l.deleted ⟨0, by decide⟩) :=
    hreach.step (a := .delete (jidOf ⟨0, by decide⟩)) ⟨true, delete_job_jidOf hfirst⟩
  have hok := reachable_ok hreach'
  have hcount : (l.deleted ⟨0, by decide⟩).count < MAXJOBS := by
    refine lt_of_le_of_ne (count_le _) fun heq => ?_
    exact (occupied_deleted.mp (count_eq.mp heq ⟨0, by decide⟩)).1 rfl
  have hrun : (l.deleted ⟨0, by decide⟩).add_job 65 .BG (some [108, 115]) true =
      .ok (l.deleted ⟨0, by decide⟩, 0) := by
    have hbig := hok.exhausted.mpr (job_exists_jidOf.mpr htop)
    have hperm : (l.deleted ⟨0, by decide⟩).Permitted .BG := Or.inr (Or.inl rfl)
    rcases add_job_cases hok hperm.ne_undef hperm.foreground 65 [108, 115] true with
      ⟨hneg, -⟩ | ⟨-, -, hrun⟩ | ⟨-, halloc, -⟩ | ⟨i, -, -, hnext, -, -⟩
    · exact absurd hneg (by decide)
    · exact hrun
    · cases halloc
    · have hi : i.val < MAXJOBS := i.isLt
      rw [hnext, jidOf] at hbig
      omega
  refine ⟨_, hreach', hcount, hrun, fun hcap => ?_⟩
  obtain ⟨l', jid, hrun', hjid, -⟩ := hcap.1 hcount
  rw [hrun] at hrun'
  exact hjid (Prod.mk.inj (Except.ok.inj hrun')).2.symm

end JobList

end Labs.Shell
