import MiniRunner.Main

/-!
# From the end of a command to the next start

A process may leave the data files in any state that the next constructor loads.
`Restarts fs cmd` says that the process of one command does, started on the files `fs`
in any world. What a command does is a question about its own function; what the
destructor makes of the process it leaves is the same for all of them, and
`closesWell_iff` answers it: the process waits for the jobs lock for ever, or the services
and the env entries it saves reload. With two limits or more to save it aborts, but by
then the other tables are saved and the limits file is as it was.
-/

namespace MiniRunner

open Clib

variable {W : Type} {fs : Files}

/-- What the constructor loads from the data files. -/
structure Stored (fs : Files) where
  services : Table Service
  jobs : Table Job
  envs : Table Env
  limits : Table Limit
  loadsServices : loadServices initialServices (fs.content (.file .projects)) = .ok services
  loadsJobs : loadJobs initialJobs (fs.content (.file .jobs)) = .ok jobs
  loadsEnvs : loadEnvs initialEnvs (fs.content (.file .env)) = .ok envs
  loadsLimits : initLimits initialLimits (fs.content (.file .limits)) = .ok limits

theorem Stored.loads (st : Stored fs) : Loads fs :=
  ⟨⟨_, st.loadsServices⟩, ⟨_, st.loadsJobs⟩, ⟨_, st.loadsEnvs⟩, ⟨_, st.loadsLimits⟩⟩

/-- **Restartability of one command**: whatever the world does, the files at the end of
its process load again. A process that waits for ever has no end. -/
def Restarts (fs : Files) (cmd : Command) : Prop :=
  ∀ (W : Type) (sys : Calls W) (w : W),
    Exec.wp (wholeProcess (cmd.exec sys)) (fun _ p => Loads p.files)
      (fun e p => e ≠ .undefined ∧ (e = .aborted → Loads p.files)) (Process.start fs w)

/-- What a process has to do once its command has returned. -/
def ClosesWell (p : Process W) : Prop :=
  Exec.wp closeProcess (fun _ p => Loads p.files)
    (fun e p => e ≠ .undefined ∧ (e = .aborted → Loads p.files)) p

/-! ## The destructor -/

/-- The lock is not free and there are jobs to save. -/
def Waits (fs : Files) (p : Process W) : Prop := p.jobs.items ≠ [] ∧ ¬LockFree fs

/-- The services that are saved do not clash. -/
def ServicesReload (p : Process W) : Prop := DistinctServices (p.services.items.filter (·.cloned))

def EnvsReload (p : Process W) : Prop :=
  ∃ t, loadEnvs initialEnvs (envsText p.envs.items) = .ok t

/-- What no command breaks: the data files are still those the process was started on,
and what is to be saved is well-formed apart from clashes. -/
structure Intact (fs : Files) (p : Process W) : Prop where
  files : ∀ s ∈ [Store.projects, .limits, .jobsSync],
    p.files.content (.file s) = fs.content (.file s)
  state : p.reformatState = true
  services : ∀ s ∈ p.services.items, s.cloned = true → s.Ok ∧ s.Fits
  jobs : (∀ j ∈ p.jobs.items, j.Ok) ∧ DistinctJobs p.jobs.items
  limits : ∀ l ∈ p.limits.items, l.Ok

variable {p : Process W}

theorem Intact.waits_iff (h : Intact fs p) :
    Waits fs p ↔ p.jobs.items ≠ [] ∧ ¬LockFree p.files := by
  rw [Waits, LockFree.congr (h.files .jobsSync (by simp))]

/-- The services a destructor saves load exactly when they do not clash. -/
theorem Intact.services_load_iff (h : Intact fs p) (st : Stored fs) :
    (∃ t, loadServices initialServices (savedProjects p.files p.services.items) = .ok t) ↔
      ServicesReload p := by
  unfold savedProjects ServicesReload
  split
  · rename_i hkept
    have hnone : p.services.items.filter (·.cloned) = [] := by
      rw [List.filter_eq_nil_iff]
      exact List.any_eq_false.mp hkept.1
    rw [hnone, h.files .projects (by simp)]
    exact iff_of_true ⟨_, st.loadsServices⟩ Ledger.distinct_nil
  · rw [servicesText_eq fun s hs hc => (h.services s hs hc).2]
    have hok : ∀ s ∈ p.services.items.filter (·.cloned), servicesFormat.Ok s := fun s hs =>
      (h.services s (List.mem_filter.mp hs).1 (List.mem_filter.mp hs).2).1
    refine (servicesFormat.parse_text_iff (services_loads _) (Table.honest_alloc _) rfl hok
      (Nat.le_refl _)).trans ?_
    simp [servicesFormat]

theorem limits_load {l : List Limit} (hok : ∀ x ∈ l, x.Ok) (hlen : l.length ≤ 1) :
    ∃ t, initLimits initialLimits (limitsFormat.textAll l) = .ok t := by
  have hd : Distinct (limitClash · · = true) (l.map limitsFormat.readBack) := by
    match l, hlen with
    | [], _ => exact Ledger.distinct_nil
    | [x], _ => exact List.pairwise_singleton ..
  obtain ⟨t, ht, -⟩ := limitsFormat.parse_text limits_loads limitBlock_initialLimits rfl hok hd
    (by simp only [limitLimit]; omega)
  exact ⟨t, ht⟩

theorem Intact.limits_load (h : Intact fs p) (st : Stored fs) :
    ∃ t, initLimits initialLimits (savedLimits p p.files) = .ok t := by
  unfold savedLimits
  split
  · rename_i hsaved
    refine MiniRunner.limits_load h.limits ?_
    by_contra hlong
    exact hsaved.2 ⟨hsaved.1, by omega⟩
  · rw [h.files .limits (by simp)]
    exact ⟨_, st.loadsLimits⟩

theorem Closed.loads_iff {fs' : Files} (hclosed : Closed p fs') (st : Stored fs)
    (h : Intact fs p) : Loads fs' ↔ ServicesReload p ∧ EnvsReload p := by
  have hservices := h.services_load_iff st
  obtain ⟨t, hjobs, -⟩ := loadJobs_jobsText (Table.honest_alloc _) rfl h.jobs.1 h.jobs.2
  rw [Loads, hclosed.projects, hclosed.jobs, hclosed.env, hclosed.limits, if_pos h.state,
    if_pos h.state]
  constructor
  · rintro ⟨hprojects, -, henvs, -⟩
    exact ⟨hservices.mp hprojects, henvs⟩
  · rintro ⟨hprojects, henvs⟩
    exact ⟨hservices.mpr hprojects, ⟨t, hjobs⟩, henvs, h.limits_load st⟩

/-- **When a process closes well**: it waits for ever, or all it saves reloads. -/
theorem closesWell_iff (st : Stored fs) (h : Intact fs p) :
    ClosesWell p ↔ Waits fs p ∨ ServicesReload p ∧ EnvsReload p := by
  have hclose := wp_closeProcess p
  rw [h.waits_iff]
  constructor
  · intro hwell
    by_contra hno
    refine Exec.not_wp_false (Exec.wp_mono (Exec.wp_and hwell hclose) ?_ ?_)
    · rintro _ p' ⟨hloads, -, hclosed⟩
      exact hno (.inr ((hclosed.loads_iff st h).mp hloads))
    · rintro e p' ⟨⟨-, hloads⟩, ⟨-, -, hwaits⟩ | ⟨haborted, -, hclosed⟩⟩
      · exact hno (.inl hwaits)
      · exact hno (.inr ((hclosed.loads_iff st h).mp (hloads haborted)))
  · rintro (⟨hne, hlock⟩ | hreload)
    · refine Exec.wp_mono hclose ?_ ?_
      · exact fun _ _ hend => absurd (hend.2.unlocked h.state hne) hlock
      · rintro e p' (⟨rfl, -⟩ | ⟨rfl, -, hclosed⟩)
        · exact ⟨by decide, fun h => absurd h (by decide)⟩
        · exact absurd (hclosed.unlocked h.state hne) hlock
    · refine Exec.wp_mono hclose ?_ ?_
      · exact fun _ _ hend => (hend.2.loads_iff st h).mpr hreload
      · rintro e p' (⟨rfl, -⟩ | ⟨rfl, -, hclosed⟩)
        · exact ⟨by decide, fun h => absurd h (by decide)⟩
        · exact ⟨by decide, fun _ => (hclosed.loads_iff st h).mpr hreload⟩

/-! ## Processes that are ready to close -/

/-- Intact, and the services and env entries reload. -/
structure Ready (fs : Files) (p : Process W) : Prop extends Intact fs p where
  servicesReload : ServicesReload p
  envsReload : EnvsReload p

namespace Ready

theorem closesWell (st : Stored fs) (h : Ready fs p) : ClosesWell p :=
  (closesWell_iff st h.toIntact).mpr (.inr ⟨h.servicesReload, h.envsReload⟩)

theorem world (h : Ready fs p) (w : W) : Ready fs { p with world := w } :=
  ⟨⟨h.files, h.state, h.services, h.jobs, h.limits⟩, h.servicesReload, h.envsReload⟩

theorem mark (h : Ready fs p) (b : Bool) : Ready fs { p with reformatLimits := b } :=
  ⟨⟨h.files, h.state, h.services, h.jobs, h.limits⟩, h.servicesReload, h.envsReload⟩

theorem withServices (h : Ready fs p) (t : Table Service)
    (hok : ∀ s ∈ t.items, s.cloned = true → s.Ok ∧ s.Fits)
    (hd : DistinctServices (t.items.filter (·.cloned))) : Ready fs { p with services := t } :=
  ⟨⟨h.files, h.state, hok, h.jobs, h.limits⟩, hd, h.envsReload⟩

theorem withJobs (h : Ready fs p) (t : Table Job) (hok : ∀ j ∈ t.items, j.Ok)
    (hd : DistinctJobs t.items) : Ready fs { p with jobs := t } :=
  ⟨⟨h.files, h.state, h.services, ⟨hok, hd⟩, h.limits⟩, h.servicesReload, h.envsReload⟩

theorem withEnvs (h : Ready fs p) (t : Table Env)
    (hload : ∃ t', loadEnvs initialEnvs (envsText t.items) = .ok t') :
    Ready fs { p with envs := t } :=
  ⟨⟨h.files, h.state, h.services, h.jobs, h.limits⟩, h.servicesReload, hload⟩

theorem withLimits (h : Ready fs p) (t : Table Limit) (hok : ∀ l ∈ t.items, l.Ok) :
    Ready fs { p with limits := t } :=
  ⟨⟨h.files, h.state, h.services, h.jobs, hok⟩, h.servicesReload, h.envsReload⟩

end Ready

end MiniRunner
