import SystemsLabs.Shelllab.JobList
import Mathlib.Tactic.Common

/-! @lab shelllab | file:tsh_helper.c (job list) | structure:job table | main result:the table invariant

    `Ok` is what the helpers rely on and keep: slots hold their own job ID, the counter is one past
    the highest slot in use, and at most one job is in the foreground. The searches are characterised
    by what they find, and each operation by what it does to a sound table, errors included. -/

namespace Labs.Shell

/-! ### Slots and searches -/

theorem get_job_jidOf (i : Fin MAXJOBS) : get_job (jidOf i) = .ok i := by
  have hi : i.val < MAXJOBS := i.isLt
  rw [get_job, dif_neg (by unfold jidOf; omega)]
  exact congrArg Except.ok (Fin.ext (by simp [jidOf]))

theorem get_job_eq {jid : ℤ} {i : Fin MAXJOBS} (h : get_job jid = .ok i) : jid = jidOf i := by
  rw [get_job] at h
  split at h
  · cases h
  · rename_i hjid
    obtain rfl := Except.ok.inj h
    simp only [jidOf]
    omega

theorem jidOf_pos (i : Fin MAXJOBS) : 0 < jidOf i := by
  unfold jidOf
  omega

namespace JobList
variable {l l' : JobList} {i j : Fin MAXJOBS} {jid : ℤ} {pid : ℤ} {state : JobState}

/-- The slot is in use. -/
def Occupied (l : JobList) (i : Fin MAXJOBS) : Prop := l.state i ≠ .UNDEF

theorem occupied_of_state (h : l.state i = state) (hstate : state ≠ .UNDEF) : l.Occupied i := by
  rwa [Occupied, h]

instance : Decidable (l.Occupied i) := inferInstanceAs (Decidable (l.state i ≠ .UNDEF))

def NoForeground (l : JobList) : Prop := ∀ i, l.state i ≠ .FG

@[simp] theorem put_self {job : Job} : (l.put i job).job_list i = job := Function.update_self ..

@[simp] theorem put_of_ne {job : Job} (h : j ≠ i) : (l.put i job).job_list j = l.job_list j :=
  Function.update_of_ne h ..

/-- A search finds a slot that passes, or none does. -/
theorem firstJid_cases {slots : List (Fin MAXJOBS)} {test : Fin MAXJOBS → Bool}
    (hall : ∀ i, i ∈ slots) : (firstJid slots test = 0 ∧ ∀ i, test i = false) ∨
      ∃ i, firstJid slots test = jidOf i ∧ test i = true := by
  rw [firstJid]
  cases hfind : slots.find? test with
  | none =>
    refine Or.inl ⟨rfl, ?_⟩
    intro i
    simpa using List.find?_eq_none.mp hfind i (hall i)
  | some i => exact Or.inr ⟨i, rfl, List.find?_some hfind⟩

theorem fg_job_cases (l : JobList) : (l.fg_job = 0 ∧ l.NoForeground) ∨
    ∃ i, l.fg_job = jidOf i ∧ l.state i = .FG := by
  simpa [NoForeground, fg_job] using
    @firstJid_cases _ (fun i => l.state i = .FG) List.mem_finRange

theorem fg_job_eq_zero : l.fg_job = 0 ↔ l.NoForeground := by
  constructor
  · intro h
    rcases fg_job_cases l with ⟨-, hno⟩ | ⟨i, hi, -⟩
    · exact hno
    · exact absurd (hi.symm.trans h) (jidOf_pos i).ne'
  · intro h
    rcases fg_job_cases l with ⟨hzero, -⟩ | ⟨i, -, hi⟩
    · exact hzero
    · exact absurd hi (h i)

theorem job_exists_jidOf : l.job_exists (jidOf i) = true ↔ l.Occupied i := by
  rw [job_exists, get_job_jidOf]
  exact @decide_eq_true_iff (l.state i ≠ .UNDEF) _

theorem job_exists_cases (h : l.job_exists jid = true) : ∃ i, jid = jidOf i ∧ l.Occupied i := by
  rw [job_exists] at h
  cases hget : get_job jid with
  | error e =>
    rw [hget] at h
    cases h
  | ok i =>
    rw [hget] at h
    exact ⟨i, get_job_eq hget, of_decide_eq_true h⟩

/-- `job_from_pid` finds a job of the process, or there is none. -/
theorem job_from_pid_cases (l : JobList) (hpid : ∀ i, l.Occupied i → 0 < (l.job_list i).pid)
    (pid : ℤ) : (l.job_from_pid pid = 0 ∧ ∀ i, l.Occupied i → (l.job_list i).pid ≠ pid) ∨
      ∃ i, l.job_from_pid pid = jidOf i ∧ l.Occupied i ∧ (l.job_list i).pid = pid := by
  rw [job_from_pid]
  split
  · rename_i hneg
    refine Or.inl ⟨rfl, ?_⟩
    intro i hi heq
    have := hpid i hi
    omega
  · rcases @firstJid_cases _ (fun i => l.state i ≠ .UNDEF ∧ (l.job_list i).pid = pid)
      List.mem_finRange with ⟨hzero, hnone⟩ | ⟨i, hi, htest⟩
    · refine Or.inl ⟨hzero, ?_⟩
      intro i hi heq
      exact of_decide_eq_false (hnone i) ⟨hi, heq⟩
    · exact Or.inr ⟨i, hi, of_decide_eq_true htest⟩

/-- `maxjid` finds the highest slot in use, or there is none. -/
theorem maxjid_cases (l : JobList) : (l.maxjid = 0 ∧ ∀ i, ¬ l.Occupied i) ∨
    ∃ i, l.maxjid = jidOf i ∧ l.Occupied i ∧ ∀ j, l.Occupied j → j ≤ i := by
  rw [maxjid, firstJid]
  cases hfind : (List.finRange MAXJOBS).reverse.find? fun i => l.job_exists (jidOf i) with
  | none =>
    refine Or.inl ⟨rfl, ?_⟩
    intro i hi
    exact List.find?_eq_none.mp hfind i (by simp) (job_exists_jidOf.mpr hi)
  | some i =>
    obtain ⟨htest, before, after, hsplit, hbefore⟩ := List.find?_eq_some_iff_append.mp hfind
    refine Or.inr ⟨i, rfl, job_exists_jidOf.mp htest, ?_⟩
    intro j hj
    have hmem : j ∈ before ++ i :: after := hsplit ▸ List.mem_reverse.mpr (List.mem_finRange j)
    have hsorted : (before ++ i :: after).Pairwise (· > ·) := by
      rw [← hsplit, List.pairwise_reverse]
      exact List.pairwise_lt_finRange MAXJOBS
    rcases List.mem_append.mp hmem with hin | hin
    · have hfail := hbefore j hin
      rw [job_exists_jidOf.mpr hj] at hfail
      cases hfail
    · rcases List.mem_cons.mp hin with rfl | hin
      · exact le_refl _
      · exact le_of_lt ((List.pairwise_cons.mp (List.pairwise_append.mp hsorted).2.1).1 j hin)

/-! ### The table invariant -/

/-- Slots hold their own job ID and a process, the counter is one past the highest slot in use, and
    at most one job is in the foreground. -/
structure Ok (l : JobList) : Prop where
  jid : ∀ i, l.Occupied i → (l.job_list i).jid = jidOf i
  pid : ∀ i, l.Occupied i → 0 < (l.job_list i).pid
  below : ∀ i, l.Occupied i → jidOf i < l.nextjid
  top : (l.nextjid = 1 ∧ ∀ i, ¬ l.Occupied i) ∨ ∃ i, l.Occupied i ∧ l.nextjid = jidOf i + 1
  one : ∀ i j, l.state i = .FG → l.state j = .FG → i = j

/-- The table after `add_job` has filled slot `i`. -/
def added (l : JobList) (i : Fin MAXJOBS) (pid : ℤ) (state : JobState) (text : Bytes) : JobList :=
  { l.put i ⟨pid, jidOf i, state, some text⟩ with nextjid := jidOf i + 1 }

/-- The table after `delete_job` has cleared slot `i`. -/
def deleted (l : JobList) (i : Fin MAXJOBS) : JobList :=
  let l := l.put i (clearjob (l.job_list i))
  { l with nextjid := l.maxjid + 1 }

def setState (l : JobList) (i : Fin MAXJOBS) (state : JobState) : JobList :=
  l.put i { l.job_list i with state := state }

theorem ok_init : Ok init_job_list where
  jid _ hi := absurd rfl hi
  pid _ hi := absurd rfl hi
  below _ hi := absurd rfl hi
  top := Or.inl ⟨rfl, fun _ hi => hi rfl⟩
  one _ _ hi := nomatch hi

theorem noForeground_init : NoForeground init_job_list := fun _ hi => nomatch hi

section Update
variable {text : Bytes}

/-- A changed slot and the others. -/
theorem state_put {job : Job} : (l.put i job).state j = if j = i then job.state else l.state j := by
  unfold JobList.state
  split
  · rename_i h
    rw [h, put_self]
  · rename_i h
    rw [put_of_ne h]

theorem occupied_added (hstate : state ≠ .UNDEF) :
    (l.added i pid state text).Occupied j ↔ j = i ∨ l.Occupied j := by
  change (l.put i _).state j ≠ .UNDEF ↔ _
  rw [state_put]
  split
  · simp_all
  · simp_all [Occupied]

theorem occupied_deleted : (l.deleted i).Occupied j ↔ j ≠ i ∧ l.Occupied j := by
  change (l.put i _).state j ≠ .UNDEF ↔ _
  rw [state_put]
  split
  · simp_all [clearjob]
  · simp_all [Occupied]

theorem occupied_setState (hi : l.Occupied i) (hstate : state ≠ .UNDEF) :
    (l.setState i state).Occupied j ↔ l.Occupied j := by
  change (l.put i _).state j ≠ .UNDEF ↔ _
  rw [state_put]
  split
  · simp_all
  · rfl

/-- A slot may go to the foreground when no job is there. -/
theorem Ok.one_put {job : Job} (hok : l.Ok) (hfg : job.state = .FG → l.NoForeground) :
    ∀ j k, (l.put i job).state j = .FG → (l.put i job).state k = .FG → j = k := by
  intro j k hj hk
  rw [state_put] at hj hk
  split at hj
  · split at hk
    · simp_all
    · exact absurd hk (hfg hj k)
  · split at hk
    · exact absurd hj (hfg hk j)
    · exact hok.one j k hj hk

theorem Ok.added (hok : l.Ok) (hnext : l.nextjid = jidOf i) (hpid : 0 < pid)
    (hstate : state ≠ .UNDEF) (hfg : state = .FG → l.NoForeground) :
    (l.added i pid state text).Ok where
  jid j hj := by
    rcases eq_or_ne j i with rfl | hne
    · simp [JobList.added]
    · simpa [JobList.added, hne] using hok.jid j (((occupied_added hstate).mp hj).resolve_left hne)
  pid j hj := by
    rcases eq_or_ne j i with rfl | hne
    · simpa [JobList.added] using hpid
    · simpa [JobList.added, hne] using hok.pid j (((occupied_added hstate).mp hj).resolve_left hne)
  below j hj := by
    change jidOf j < jidOf i + 1
    rcases (occupied_added hstate).mp hj with rfl | hj
    · omega
    · have := hok.below j hj
      omega
  top := Or.inr ⟨i, (occupied_added hstate).mpr (Or.inl rfl), rfl⟩
  one := hok.one_put hfg

theorem Ok.deleted (hok : l.Ok) : (l.deleted i).Ok where
  jid j hj := by
    obtain ⟨hne, hj⟩ := occupied_deleted.mp hj
    simpa [JobList.deleted, hne] using hok.jid j hj
  pid j hj := by
    obtain ⟨hne, hj⟩ := occupied_deleted.mp hj
    simpa [JobList.deleted, hne] using hok.pid j hj
  below j hj := by
    change jidOf j < (l.put i _).maxjid + 1
    rcases maxjid_cases (l.put i (clearjob (l.job_list i))) with ⟨-, hnone⟩ | ⟨k, hk, -, hmax⟩
    · exact absurd hj (hnone j)
    · have hle : j ≤ k := hmax j hj
      have hval : j.val ≤ k.val := hle
      rw [hk]
      unfold jidOf
      omega
  top := by
    rcases maxjid_cases (l.put i (clearjob (l.job_list i))) with ⟨hzero, hnone⟩ | ⟨k, hk, hocc, -⟩
    · exact Or.inl ⟨by simp [JobList.deleted, hzero], hnone⟩
    · exact Or.inr ⟨k, hocc, by simp [JobList.deleted, hk]⟩
  one := hok.one_put nofun

theorem Ok.setState (hok : l.Ok) (hi : l.Occupied i) (hstate : state ≠ .UNDEF)
    (hfg : state = .FG → l.NoForeground) : (l.setState i state).Ok where
  jid j hj := by
    have hold := hok.jid j ((occupied_setState hi hstate).mp hj)
    rcases eq_or_ne j i with rfl | hne
    · simpa [JobList.setState] using hold
    · simpa [JobList.setState, hne] using hold
  pid j hj := by
    have hold := hok.pid j ((occupied_setState hi hstate).mp hj)
    rcases eq_or_ne j i with rfl | hne
    · simpa [JobList.setState] using hold
    · simpa [JobList.setState, hne] using hold
  below j hj := hok.below j ((occupied_setState hi hstate).mp hj)
  top := by
    rcases hok.top with ⟨hone, hnone⟩ | ⟨k, hk, hnext⟩
    · exact absurd hi (hnone i)
    · exact Or.inr ⟨k, (occupied_setState hi hstate).mpr hk, hnext⟩
  one := hok.one_put hfg

/-- Only a new foreground job ends the absence of one. -/
theorem NoForeground.put {job : Job} (hno : l.NoForeground) (hstate : job.state ≠ .FG) :
    (l.put i job).NoForeground := by
  intro j hj
  rw [state_put] at hj
  split at hj
  · exact hstate hj
  · exact hno j hj

end Update

/-! ### What the operations do -/

/-- `add_job` on a sound table: a bad process ID, a full table, no memory, or the slot at the counter
    is free and gets the job. -/
theorem add_job_cases (hok : l.Ok) (hstate : state ≠ .UNDEF) (hfg : state = .FG → l.NoForeground)
    (pid : ℤ) (text : Bytes) (alloc : Bool) :
    (pid ≤ 0 ∧ l.add_job pid state (some text) alloc = .error .badPid) ∨
    (0 < pid ∧ l.nextjid > MAXJOBS ∧ l.add_job pid state (some text) alloc = .ok (l, 0)) ∨
    (0 < pid ∧ alloc = false ∧ l.add_job pid state (some text) alloc = .error .realloc) ∨
    ∃ i, 0 < pid ∧ alloc = true ∧ l.nextjid = jidOf i ∧ ¬ l.Occupied i ∧
      l.add_job pid state (some text) alloc = .ok (l.added i pid state text, jidOf i) := by
  have hallowed : (state = .FG ∧ l.fg_job = 0) ∨ state = .BG ∨ state = .ST := by
    cases state with
    | UNDEF => exact absurd rfl hstate
    | FG => exact Or.inl ⟨rfl, fg_job_eq_zero.mpr (hfg rfl)⟩
    | BG => exact Or.inr (Or.inl rfl)
    | ST => exact Or.inr (Or.inr rfl)
  have hnext : 0 < l.nextjid := by
    rcases hok.top with ⟨hone, -⟩ | ⟨i, -, hi⟩
    · omega
    · have := jidOf_pos i
      omega
  rcases lt_or_ge 0 pid with hpid | hpid
  · have hpid' : ¬ pid ≤ 0 := by omega
    rcases lt_or_ge (MAXJOBS : ℤ) l.nextjid with hbig | hbig
    · refine Or.inr (Or.inl ⟨hpid, hbig, ?_⟩)
      rw [add_job, if_neg (not_not.mpr hallowed), if_neg hpid']
      simp only [hnext, hbig, not_true_eq_false, ↓reduceIte]
    · have hbig' : ¬ MAXJOBS < l.nextjid := by omega
      obtain ⟨i, hi⟩ : ∃ i, l.nextjid = jidOf i :=
        ⟨⟨(l.nextjid - 1).toNat, by omega⟩, by simp [jidOf]; omega⟩
      have hfree : ¬ l.Occupied i := fun hocc => by
        have := hok.below i hocc
        omega
      have hundef : l.state i = .UNDEF := not_not.mp hfree
      refine Or.inr (Or.inr ?_)
      rw [add_job, if_neg (not_not.mpr hallowed), if_neg hpid']
      simp only [hnext, hbig', not_true_eq_false, ↓reduceIte]
      rw [hi, get_job_jidOf]
      cases alloc with
      | false => exact Or.inl ⟨hpid, rfl, by simp [bind, Except.bind, hundef]⟩
      | true => exact Or.inr ⟨i, hpid, rfl, rfl, hfree, by simp [bind, Except.bind, hundef, JobList.added]⟩
  · refine Or.inl ⟨hpid, ?_⟩
    rw [add_job, if_neg (not_not.mpr hallowed), if_pos hpid]

/-- `delete_job` clears a slot in use, and otherwise does nothing; its assertion holds. -/
theorem delete_job_jidOf (hi : l.Occupied i) :
    l.delete_job (jidOf i) = .ok (l.deleted i, true) := by
  have hmax : 0 < (l.put i (clearjob (l.job_list i))).maxjid + 1 := by
    rcases maxjid_cases (l.put i (clearjob (l.job_list i))) with ⟨hzero, -⟩ | ⟨k, hk, -, -⟩
    · omega
    · have := jidOf_pos k
      omega
  rw [delete_job, if_pos (job_exists_jidOf.mpr hi), get_job_jidOf]
  exact if_neg (not_not.mpr hmax)

theorem delete_job_zero : l.delete_job 0 = .ok (l, false) := by
  rw [delete_job, if_neg]
  intro h
  obtain ⟨i, hi, -⟩ := job_exists_cases h
  exact absurd hi (jidOf_pos i).ne

/-- `job_set_state` needs a job, and, for the foreground, that no other job is there. -/
theorem job_set_state_jidOf (hi : l.Occupied i) (hstate : state ≠ .UNDEF)
    (hfg : state = .FG → l.NoForeground) :
    l.job_set_state (jidOf i) state = .ok (l.setState i state) := by
  have hvalid : l.require_valid_state (jidOf i) state = .ok () := by
    rw [require_valid_state, if_neg, if_neg]
    · rintro ⟨hstate', hother⟩
      exact hother (fg_job_eq_zero.mpr (hfg hstate'))
    · rintro ⟨hf, hb, hs⟩
      cases state <;> contradiction
  rw [job_set_state, require_job_exists, if_pos (job_exists_jidOf.mpr hi), hvalid, get_job_jidOf]
  rfl

theorem job_get_pid_jidOf (hi : l.Occupied i) :
    l.job_get_pid (jidOf i) = .ok (l.job_list i).pid := by
  rw [job_get_pid, require_job_exists, if_pos (job_exists_jidOf.mpr hi), get_job_jidOf]
  rfl

/-- The job in the foreground has its process id. -/
theorem fg_job_pid {e : Halt} (hfg : l.fg_job > 0) : l.job_get_pid l.fg_job ≠ .error e := by
  rcases fg_job_cases l with ⟨hzero, -⟩ | ⟨i, hi, hstate⟩
  · rw [hzero] at hfg
    cases hfg
  · rw [hi, job_get_pid_jidOf (occupied_of_state hstate (by simp))]
    exact nofun

theorem job_get_cmdline_jidOf (hi : l.Occupied i) :
    l.job_get_cmdline (jidOf i) = .ok (l.job_list i).cmdline := by
  rw [job_get_cmdline, require_job_exists, if_pos (job_exists_jidOf.mpr hi), get_job_jidOf]
  rfl

theorem job_get_cmdline_missing (h : ¬ l.job_exists jid = true) :
    l.job_get_cmdline jid = .error (.noSuchJob "job_get_cmdline" jid) := by
  rw [job_get_cmdline, require_job_exists, if_neg h]
  rfl

theorem job_set_state_zero : l.job_set_state 0 state = .error (.noSuchJob "job_set_state" 0) :=
  rfl

end JobList

end Labs.Shell
