import MiniRunner.Refinement.Jobs
import MiniRunner.Restart.Closing

/-!
# Which commands restart

For each command, what it leaves and when that process closes well. Every command is
looked at in every world for the direction from its condition; the other direction
picks a world, one in which every call works or one in which every call fails.
-/

namespace MiniRunner

open Clib Process

variable {W : Type} {fs : Files}

/-! ## The loaded process -/

namespace Stored

def Has (st : Stored fs) (name : CStr) : Prop := st.services.items.any (·.name == name) = true

instance (st : Stored fs) (name : CStr) : Decidable (st.Has name) :=
  inferInstanceAs (Decidable (_ = _))

/-- A process that keeps the jobs waits for ever when it saves them. -/
def Waits (st : Stored fs) : Prop := st.jobs.items ≠ [] ∧ ¬LockFree fs

instance (st : Stored fs) : Decidable st.Waits := inferInstanceAs (Decidable (_ ∧ _))

end Stored

section loaded

variable {w : W} {p : Process W}

theorem Loaded.eq_services (hp : Loaded fs w p) (st : Stored fs) : p.services = st.services :=
  Except.ok.inj (hp.services.symm.trans st.loadsServices)

theorem Loaded.eq_jobs (hp : Loaded fs w p) (st : Stored fs) : p.jobs = st.jobs :=
  Except.ok.inj (hp.jobs.symm.trans st.loadsJobs)

theorem Loaded.eq_envs (hp : Loaded fs w p) (st : Stored fs) : p.envs = st.envs :=
  Except.ok.inj (hp.envs.symm.trans st.loadsEnvs)

theorem Loaded.eq_limits (hp : Loaded fs w p) (st : Stored fs) : p.limits = st.limits :=
  Except.ok.inj (hp.limits.symm.trans st.loadsLimits)

theorem filter_cloned_eq {l : List Service} (h : ∀ s ∈ l, s.Ok) : l.filter (·.cloned) = l :=
  List.filter_eq_self.mpr fun s hs => (h s hs).cloned

/-- **A process that has only loaded is ready to close.** -/
theorem Loaded.ready (hp : Loaded fs w p) (st : Stored fs)
    (hfit : ∀ s ∈ st.services.items, s.Fits) : Ready fs p := by
  obtain ⟨hok, hd, -⟩ := loadServices_sound hp.services
  obtain ⟨hjobs, hjd, -⟩ := loadJobs_sound (Table.honest_alloc _) rfl hp.jobs
  obtain ⟨henvs, hed, hblock⟩ := loadEnvs_sound hp.envs
  refine ⟨⟨fun s hs => ?_, hp.reformatState, fun s hs _ => ?_, ⟨hjobs, hjd⟩,
    (initLimits_sound hp.limits).1⟩, ?_, ?_⟩
  · have hne : (Path.file s) ∉ [Path.file .updateStatus, .fileCopy .projects, .fileCopy .jobs] := by
      simp only [List.mem_cons, List.not_mem_nil, or_false] at hs
      rcases hs with rfl | rfl | rfl <;> decide
    exact hp.files _ hne
  · exact ⟨hok s hs, hfit s (hp.eq_services st ▸ hs)⟩
  · rw [ServicesReload, filter_cloned_eq hok]
    exact hd
  · obtain ⟨t, ht, -⟩ := loadEnvs_envsText henvs hed hblock.length_le
    exact ⟨t, ht⟩

theorem Loaded.loads (hp : Loaded fs w p) (st : Stored fs) {p' : Process W}
    (hfiles : ∀ q, p'.files.content q = p.files.content q) : Loads p'.files := by
  have hsame : ∀ s ∈ [Store.projects, .jobs, .env, .limits],
      p'.files.content (.file s) = fs.content (.file s) := fun s hs => by
    rw [hfiles]
    refine hp.files _ ?_
    simp only [List.mem_cons, List.not_mem_nil, or_false] at hs
    rcases hs with rfl | rfl | rfl | rfl <;> decide
  rw [Loads, hsame .projects (by simp), hsame .jobs (by simp), hsame .env (by simp),
    hsame .limits (by simp)]
  exact st.loads

end loaded

/-! ## From a command to its process -/

/-- To restart, a command has to leave a process that closes well, or abort with the
files as they were. -/
theorem restarts_of {cmd : Command} (st : Stored fs)
    (h : ∀ (W : Type) (sys : Calls W) (w : W) (p : Process W), Loaded fs w p →
      Exec.wp (cmd.exec sys) (fun _ p' => ClosesWell p') (fun e p' => e = .aborted ∧ Loads p'.files)
        p) : Restarts fs cmd := by
  intro W sys w
  simp only [wholeProcess, Exec.wp_bind, Exec.wp_pure]
  refine Exec.wp_mono (wp_init fs w) (fun _ p hp => ?_) fun _ _ hno => absurd st.loads hno
  refine Exec.wp_mono (h W sys w p hp) (fun _ p' hclose => hclose) ?_
  rintro e p' ⟨rfl, hloads⟩
  exact ⟨by decide, fun _ => hloads⟩

theorem Restarts.exec {cmd : Command} (h : Restarts fs cmd) (st : Stored fs) (sys : Calls W)
    (w : W) : ∃ p, Loaded fs w p ∧ Exec.wp (cmd.exec sys) (fun _ p' => ClosesWell p')
      (fun e p' => e ≠ .undefined ∧ (e = .aborted → Loads p'.files)) p := by
  have hwhole := h W sys w
  simp only [wholeProcess, Exec.wp_bind, Exec.wp_pure] at hwhole
  have hinit : Exec.wp init (fun _ p => Loaded fs w p) (fun _ _ => False) (Process.start fs w) :=
    Exec.wp_mono (wp_init fs w) (fun _ _ hp => hp) fun _ _ hno => hno st.loads
  obtain ⟨_, p, hbody, hp⟩ := Exec.exists_of_wp hwhole hinit
  exact ⟨p, hp, hbody⟩

theorem restarts_iff_of {cmd : Command} (st : Stored fs) {C : Prop}
    (key : ∀ {W : Type} (sys : Calls W) {w : W} {p : Process W} {E : Halt → Process W → Prop},
      Loaded fs w p → (Exec.wp (cmd.exec sys) (fun _ p' => ClosesWell p') E p ↔ C)) :
    Restarts fs cmd ↔ C := by
  constructor
  · intro h
    obtain ⟨p, hp, hbody⟩ := h.exec st .allFail ()
    exact (key .allFail hp).mp hbody
  · exact fun h => restarts_of st fun W sys w p hp => (key sys hp).mpr h

theorem wp_failing {p : Process W} {op : Exec (Process W) Int} {Q : Process W → Prop}
    {E : Halt → Process W → Prop} :
    Exec.wp (failing op) (fun _ p' => Q p') E p ↔ Exec.wp op (fun _ p' => Q p') E p := by
  simp only [failing, Exec.wp_bind, Exec.wp_ite, Exec.wp_pure]
  constructor
  · exact fun h => Exec.wp_mono h (fun _ _ hQ => by_cases hQ.1 hQ.2) fun _ _ hE => hE
  · exact fun h => Exec.wp_mono h (fun _ _ hQ => ⟨fun _ => hQ, fun _ => hQ⟩) fun _ _ hE => hE

/-! ## Commands that always restart -/

theorem addedService_ok {githubLink nickName : CStr} (hname : isValidName nickName = 0)
    (hrepo : isValidGithubRepo githubLink = 0) :
    (addedService githubLink nickName true).Ok ∧ (addedService githubLink nickName true).Fits := by
  obtain ⟨-, hnlen, hncaret, -⟩ := checkService_eq_zero.mp hname
  obtain ⟨-, hrlen, -, hrhash⟩ := checkService_eq_zero.mp hrepo
  refine ⟨⟨hncaret, hrhash, rfl⟩, ?_⟩
  simp only [Service.Fits, addedService, singleDataSize]
  omega

/-- What an `add` leaves among the services can be saved. -/
theorem Added.saves {githubLink nickName : CStr} (hname : isValidName nickName = 0)
    (hrepo : isValidGithubRepo githubLink = 0) {l l' : List Service} {c : Cloned} {rc : Int}
    (h : Added githubLink nickName l c rc l') (hok : ∀ s ∈ l, s.Ok ∧ s.Fits)
    (hd : DistinctServices l) :
    (∀ s ∈ l', s.cloned = true → s.Ok ∧ s.Fits) ∧ DistinctServices (l'.filter (·.cloned)) := by
  have hfilter := filter_cloned_eq fun s hs => (hok s hs).1
  cases h with
  | done hfresh =>
    refine ⟨fun s hs _ => ?_, ?_⟩
    · rcases List.mem_append.mp hs with hs | hs
      · exact hok s hs
      · rw [List.mem_singleton.mp hs]
        exact addedService_ok hname hrepo
    · rw [List.filter_append, hfilter]
      exact Ledger.distinct_append_singleton.mpr ⟨hd, fun y hy => by simp [hfresh y hy]⟩
  | uncloned hfresh =>
    refine ⟨fun s hs hc => ?_, ?_⟩
    · rcases List.mem_append.mp hs with hs | hs
      · exact hok s hs
      · rw [List.mem_singleton.mp hs] at hc
        cases hc
    · rw [List.filter_append, hfilter]
      simpa [addedService] using hd
  | clash c hclash => exact ⟨fun s hs _ => hok s hs, by rwa [hfilter]⟩

/-- Services that differ in their pids at most are saved alike. -/
theorem saves_of_identity {l l' : List Service}
    (hmap : l'.map Service.identity = l.map Service.identity)
    (hok : ∀ s ∈ l, s.cloned = true → s.Ok ∧ s.Fits)
    (hd : DistinctServices (l.filter (·.cloned))) :
    (∀ s ∈ l', s.cloned = true → s.Ok ∧ s.Fits) ∧ DistinctServices (l'.filter (·.cloned)) := by
  constructor
  · intro s hs hc
    have hmem : s.identity ∈ l.map Service.identity := hmap ▸ List.mem_map_of_mem hs
    obtain ⟨s₀, hs₀, heq⟩ := List.mem_map.mp hmem
    simp only [Service.identity, Prod.mk.injEq] at heq
    obtain ⟨hrepo, hname, hcloned⟩ := heq
    obtain ⟨hsok, hsfit⟩ := hok s₀ hs₀ (hcloned.trans hc)
    refine ⟨⟨hname ▸ hsok.name, hrepo ▸ hsok.githubRepo, hc⟩, ?_⟩
    rw [Service.Fits, hname, hrepo] at hsfit
    exact hsfit
  · have hfilter : ∀ m : List Service, (m.filter (·.cloned)).map Service.identity =
        (m.map Service.identity).filter (·.2.2) := fun m => by
      rw [List.filter_map]
      rfl
    refine Ledger.distinct_of_map_eq (k := Service.identity)
      (r := fun a b => (a.1 == b.1 || a.2.1 == b.2.1) = true) (fun _ _ => Iff.rfl) hd ?_
    rw [hfilter, hfilter, hmap]

theorem Ready.started {p p' : Process W} (h : Ready fs p) (hs : Started p p') : Ready fs p' := by
  obtain ⟨hjobs, henvs, hlimits, hstate, -⟩ := hs.others
  obtain ⟨hok, hd⟩ := saves_of_identity hs.services h.services h.servicesReload
  refine ⟨⟨fun s hmem => (hs.files _).trans (h.files s hmem), hstate.trans h.state, hok, ?_, ?_⟩,
    hd, ?_⟩
  · rw [hjobs]
    exact h.jobs
  · rw [hlimits]
    exact h.limits
  · rw [EnvsReload, henvs]
    exact h.envsReload

theorem wp_stopAll (sys : Calls W) (names : List CStr) :
    ∀ {p : Process W}, Ready fs p →
      Exec.wp (stopAll sys names) (fun _ p' => Ready fs p') (fun _ _ => False) p := by
  induction names with
  | nil => exact fun h => (Exec.wp_pure _).mpr h
  | cons name names ih =>
    intro p h
    simp only [stopAll, Exec.wp_bind]
    refine Exec.wp_mono (wp_stopService name) ?_ fun _ _ h => h
    rintro rc p' (⟨t, w, hitems⟩ | w)
    · have hmap : t.items.map Service.identity = p.services.items.map Service.identity := by
        rw [hitems]
        exact Table.map_updateFirst (f := fun s : Service => { s with pid := 0 })
          (fun _ _ => rfl) _
      obtain ⟨hok, hd⟩ := saves_of_identity hmap h.services h.servicesReload
      exact ih ((h.withServices t hok hd).world w)
    · exact ih (h.world w)

section always

variable (st : Stored fs) (hfit : ∀ s ∈ st.services.items, s.Fits)

include hfit

theorem Loaded.closesWell {w : W} {p : Process W} (hp : Loaded fs w p) (w' : W) :
    ClosesWell { p with world := w' } :=
  ((hp.ready st hfit).world w').closesWell st

theorem kept_restarts {cmd : Command} {rc : Int}
    (hexec : ∀ {W : Type} (sys : Calls W), cmd.exec sys = pure rc) : Restarts fs cmd := by
  refine restarts_of st fun W sys w p hp => ?_
  rw [hexec, Exec.wp_pure]
  exact hp.closesWell st hfit p.world

theorem add_restarts (githubLink nickName : CStr) : Restarts fs (.add githubLink nickName) := by
  refine restarts_of st fun W sys w p hp => ?_
  simp only [Command.exec, Exec.wp_ite, Exec.wp_pure]
  refine ⟨fun _ => hp.closesWell st hfit p.world, fun hname =>
    ⟨fun _ => hp.closesWell st hfit p.world, fun hrepo => wp_failing.mpr ?_⟩⟩
  obtain ⟨hok, hd, hhonest⟩ := loadServices_sound hp.services
  have hready := hp.ready st hfit
  refine Exec.wp_mono (wp_addProject githubLink nickName hhonest) ?_ ?_
  · rintro rc p' ⟨t, w', l, rfl, rfl, hadded⟩
    obtain ⟨hok', hd'⟩ := hadded.saves (not_not.mp hname) (not_not.mp hrepo)
      (fun s hs => ⟨hok s hs, (hready.services s hs (hok s hs).cloned).2⟩) hd
    exact ((hready.withServices t hok' hd').world w').closesWell st
  · rintro e p' ⟨rfl, hfiles, -⟩
    exact ⟨rfl, hp.loads st fun q => by rw [hfiles]⟩

theorem stop_restarts (names : List CStr) : Restarts fs (.stop names) := by
  refine restarts_of st fun W sys w p hp => ?_
  simp only [Command.exec, Exec.wp_bind, Exec.wp_pure]
  exact Exec.wp_mono (wp_stopAll sys names (hp.ready st hfit))
    (fun _ _ hready => hready.closesWell st) fun _ _ h => h.elim

theorem addJob_restarts (jobName runnableFile : CStr) (timeInSeconds : BitVec 64) :
    Restarts fs (.addJob jobName runnableFile timeInSeconds) := by
  refine restarts_of st fun W sys w p hp => ?_
  have hready := hp.ready st hfit
  have hkept : ∀ w', ClosesWell { p with world := w' } := hp.closesWell st hfit
  obtain ⟨hok, hd, hhonest⟩ := loadJobs_sound (Table.honest_alloc _) rfl hp.jobs
  simp only [Command.exec, Exec.wp_ite, Exec.wp_pure, Exec.wp_bind, wp_call]
  refine ⟨fun _ => hkept p.world, fun hname => ⟨fun _ => hkept p.world, fun hpath =>
    ⟨fun _ => hkept _, fun _ => ⟨fun _ => hkept _, fun htime => wp_failing.mpr ?_⟩⟩⟩⟩
  generalize (sys.time (sys.fileExists runnableFile p.world).2) = now
  have haccepted : (Jobs.Op.addJob jobName runnableFile timeInSeconds now.1).Accepted :=
    ⟨by simpa using hname, by simpa using hpath, htime⟩
  by_cases hc : ∃ y ∈ p.jobs.items,
      jobClash y (newJob jobName runnableFile timeInSeconds now.1) = true
  · rw [wp_onJobs, createJob_of_clash hc]
    exact hkept _
  · obtain ⟨t, ht, hitems⟩ := createJob_of_fresh hhonest hc
    rw [wp_onJobs, ht]
    refine ((hready.world now.2).withJobs t ?_ ?_).closesWell st
    · rw [hitems]
      intro j hj
      rcases List.mem_append.mp hj with hj | hj
      · exact hok j hj
      · rw [List.mem_singleton.mp hj]
        exact Jobs.newJob_ok haccepted
    · rw [hitems]
      exact Ledger.distinct_append_singleton.mpr ⟨hd, fun y hy hclash => hc ⟨y, hy, hclash⟩⟩

theorem removeJob_restarts (jobName : CStr) : Restarts fs (.removeJob jobName) := by
  refine restarts_of st fun W sys w p hp => ?_
  have hready := hp.ready st hfit
  refine wp_failing.mpr (wp_onJobs.mpr ?_)
  have hitems := removeJob_items jobName p.jobs
  refine (hready.withJobs _ ?_ ?_).closesWell st
  · rw [hitems]
    exact Ledger.forall_strike hready.jobs.1
  · rw [hitems]
    exact Ledger.distinct_strike hready.jobs.2

theorem removeEnv_restarts (name key : CStr) : Restarts fs (.removeEnv name key) := by
  refine restarts_of st fun W sys w p hp => wp_failing.mpr (wp_onEnvs.mpr ?_)
  obtain ⟨hok, hd, hblock⟩ := loadEnvs_sound hp.envs
  refine ((hp.ready st hfit).withEnvs _ ?_).closesWell st
  rw [removeEnv_items]
  obtain ⟨t, ht, -⟩ := loadEnvs_envsText (Ledger.forall_strike hok) (Ledger.distinct_strike hd)
    (List.length_eraseP_le.trans hblock.length_le)
  exact ⟨t, ht⟩

end always

end MiniRunner
