import SystemsLabs.Shelllab.JobTable

/-! @lab shelllab | file:tsh_helper.c (job list) | structure:job table | main result:the table by process

    The job list as its users see it, by process ID: which processes are listed, each once, and which
    of them are stopped. Each operation changes this view at one process only. -/

namespace Labs.Shell
namespace JobList
variable {l : JobList} {i : Fin MAXJOBS} {p pid : ℤ} {state : JobState} {text : Bytes}

def Listed (l : JobList) (pid : ℤ) : Prop := ∃ i, l.Occupied i ∧ (l.job_list i).pid = pid

/-- The process is listed as stopped. -/
def Stopped (l : JobList) (pid : ℤ) : Prop := ∃ i, l.state i = .ST ∧ (l.job_list i).pid = pid

/-- No process is listed twice. -/
def Unique (l : JobList) : Prop := ∀ i j, l.Occupied i → l.Occupied j →
  (l.job_list i).pid = (l.job_list j).pid → i = j

theorem stopped_iff (hu : l.Unique) (hi : l.Occupied i) :
    l.Stopped (l.job_list i).pid ↔ l.state i = .ST := by
  constructor
  · rintro ⟨j, hj, hpid⟩
    rwa [← hu j i (occupied_of_state hj (by simp)) hi hpid]
  · intro h
    exact ⟨i, h, rfl⟩

theorem Stopped.listed (h : l.Stopped p) : l.Listed p := by
  obtain ⟨i, hi, hpid⟩ := h
  exact ⟨i, occupied_of_state hi (by simp), hpid⟩

/-! ### Adding -/

theorem added_self : ((l.added i pid state text).job_list i).pid = pid := by
  simp [added]

theorem added_of_ne {j : Fin MAXJOBS} (h : j ≠ i) :
    (l.added i pid state text).job_list j = l.job_list j := by
  simp [added, h]

theorem listed_added (hfree : ¬ l.Occupied i) (hstate : state ≠ .UNDEF) :
    (l.added i pid state text).Listed p ↔ p = pid ∨ l.Listed p := by
  constructor
  · rintro ⟨j, hj, rfl⟩
    rcases eq_or_ne j i with rfl | hne
    · exact Or.inl added_self
    · exact Or.inr ⟨j, ((occupied_added hstate).mp hj).resolve_left hne, by rw [added_of_ne hne]⟩
  · rintro (rfl | ⟨j, hj, rfl⟩)
    · exact ⟨i, (occupied_added hstate).mpr (Or.inl rfl), added_self⟩
    · have hne : j ≠ i := fun heq => hfree (heq ▸ hj)
      exact ⟨j, (occupied_added hstate).mpr (Or.inr hj), by rw [added_of_ne hne]⟩

theorem stopped_added (hfree : ¬ l.Occupied i) (hstate : state ≠ .ST) :
    (l.added i pid state text).Stopped p ↔ l.Stopped p := by
  constructor
  · rintro ⟨j, hj, rfl⟩
    rcases eq_or_ne j i with rfl | hne
    · change (l.put j _).state j = .ST at hj
      rw [state_put, if_pos rfl] at hj
      exact absurd hj hstate
    · rw [JobList.state, added_of_ne hne] at hj
      exact ⟨j, hj, by rw [added_of_ne hne]⟩
  · rintro ⟨j, hj, rfl⟩
    have hne : j ≠ i := fun heq => hfree (heq ▸ occupied_of_state hj (by simp))
    exact ⟨j, by rwa [JobList.state, added_of_ne hne], by rw [added_of_ne hne]⟩

theorem Unique.added (hu : l.Unique) (hfresh : ¬ l.Listed pid) (hstate : state ≠ .UNDEF) :
    (l.added i pid state text).Unique := by
  have hne : ∀ j, l.Occupied j → (l.job_list j).pid ≠ pid := fun j hj heq => hfresh ⟨j, hj, heq⟩
  intro j k hj hk heq
  rw [occupied_added hstate] at hj hk
  rcases eq_or_ne j i with rfl | hji
  · rcases eq_or_ne k j with rfl | hki
    · rfl
    · rw [added_self, added_of_ne hki] at heq
      exact absurd heq.symm (hne k (hk.resolve_left hki))
  · rcases eq_or_ne k i with rfl | hki
    · rw [added_self, added_of_ne hji] at heq
      exact absurd heq (hne j (hj.resolve_left hji))
    · rw [added_of_ne hji, added_of_ne hki] at heq
      exact hu j k (hj.resolve_left hji) (hk.resolve_left hki) heq

/-! ### Deleting -/

theorem deleted_of_ne {j : Fin MAXJOBS} (h : j ≠ i) : (l.deleted i).job_list j = l.job_list j := by
  simp [deleted, h]

theorem listed_deleted (hu : l.Unique) (hi : l.Occupied i) :
    (l.deleted i).Listed p ↔ p ≠ (l.job_list i).pid ∧ l.Listed p := by
  constructor
  · rintro ⟨j, hj, rfl⟩
    obtain ⟨hne, hj⟩ := occupied_deleted.mp hj
    rw [deleted_of_ne hne]
    exact ⟨fun heq => hne (hu j i hj hi heq), j, hj, rfl⟩
  · rintro ⟨hp, j, hj, rfl⟩
    have hne : j ≠ i := fun heq => hp (by rw [heq])
    exact ⟨j, occupied_deleted.mpr ⟨hne, hj⟩, by rw [deleted_of_ne hne]⟩

theorem stopped_deleted (hp : p ≠ (l.job_list i).pid) :
    (l.deleted i).Stopped p ↔ l.Stopped p := by
  constructor
  · rintro ⟨j, hj, rfl⟩
    have hne : j ≠ i := by
      rintro rfl
      change (l.put j _).state j = .ST at hj
      rw [state_put, if_pos rfl] at hj
      cases hj
    rw [JobList.state, deleted_of_ne hne] at hj
    exact ⟨j, hj, by rw [deleted_of_ne hne]⟩
  · rintro ⟨j, hj, rfl⟩
    have hne : j ≠ i := fun heq => hp (by rw [heq])
    exact ⟨j, by rwa [JobList.state, deleted_of_ne hne], by rw [deleted_of_ne hne]⟩

theorem Unique.deleted (hu : l.Unique) : (l.deleted i).Unique := by
  intro j k hj hk heq
  obtain ⟨hji, hj⟩ := occupied_deleted.mp hj
  obtain ⟨hki, hk⟩ := occupied_deleted.mp hk
  rw [deleted_of_ne hji, deleted_of_ne hki] at heq
  exact hu j k hj hk heq

/-! ### Changing a state -/

theorem setState_pid {j : Fin MAXJOBS} :
    ((l.setState i state).job_list j).pid = (l.job_list j).pid := by
  rcases eq_or_ne j i with rfl | hne
  · simp [setState]
  · simp [setState, hne]

theorem listed_setState (hi : l.Occupied i) (hstate : state ≠ .UNDEF) :
    (l.setState i state).Listed p ↔ l.Listed p := by
  simp only [Listed, occupied_setState hi hstate, setState_pid]

theorem Unique.setState (hu : l.Unique) (hi : l.Occupied i) (hstate : state ≠ .UNDEF) :
    (l.setState i state).Unique := by
  intro j k hj hk heq
  rw [setState_pid, setState_pid] at heq
  exact hu j k ((occupied_setState hi hstate).mp hj) ((occupied_setState hi hstate).mp hk) heq

theorem stopped_setState_self (hu : l.Unique) (hi : l.Occupied i) (hstate : state ≠ .UNDEF) :
    (l.setState i state).Stopped (l.job_list i).pid ↔ state = .ST := by
  have hiff := stopped_iff (hu.setState hi hstate) ((occupied_setState hi hstate).mpr hi)
  rw [setState_pid] at hiff
  rw [hiff]
  change (l.put i _).state i = .ST ↔ _
  rw [state_put, if_pos rfl]

theorem stopped_setState_of_ne (hp : p ≠ (l.job_list i).pid) :
    (l.setState i state).Stopped p ↔ l.Stopped p := by
  have hstate : ∀ j, (l.job_list j).pid = p → (l.setState i state).state j = l.state j := by
    rintro j rfl
    change (l.put i _).state j = _
    rw [state_put, if_neg fun heq => hp (by rw [heq])]
  simp only [Stopped, setState_pid]
  exact exists_congr fun j => and_congr_left fun hj => by rw [hstate j hj]

end JobList

end Labs.Shell
