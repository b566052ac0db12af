import MiniRunner.System.Database

/-!
# Data files and databases

`Holds fs d` says that the data files load as the tables `d`, and `Bricked fs` that every
constructor gives up on them. A process that is about to close is `Due` to save some tables:
it has them in memory, but for a service without a clone, which is never saved, and for
limits that are not marked. Its destructor leaves files that hold those tables as they are
read back, or that are bricked, whichever `Tables.Apart` says.
-/

namespace MiniRunner.System

open Clib MiniRunner Process

variable {W : Type} {fs : Files} {d T : Tables}

/-- The data files load as these tables, and nobody holds the jobs lock. -/
structure Holds (fs : Files) (d : Tables) : Prop where
  services : ∃ t, loadServices initialServices (fs.content (.file .projects)) = .ok t ∧
    t.items = d.services
  jobs : ∃ t, loadJobs initialJobs (fs.content (.file .jobs)) = .ok t ∧ t.items = d.jobs
  envs : ∃ t, loadEnvs initialEnvs (fs.content (.file .env)) = .ok t ∧ t.items = d.envs
  limits : ∃ t, initLimits initialLimits (fs.content (.file .limits)) = .ok t ∧
    t.items = d.limits
  lock : LockFree fs

/-- What a destructor may leave as it finds it: services, limits, and a free lock. -/
structure Rests (fs : Files) (d : Tables) : Prop where
  services : ∃ t, loadServices initialServices (fs.content (.file .projects)) = .ok t ∧
    t.items = d.services
  limits : ∃ t, initLimits initialLimits (fs.content (.file .limits)) = .ok t ∧
    t.items = d.limits
  lock : LockFree fs

theorem Holds.rests (h : Holds fs d) : Rests fs d := ⟨h.services, h.limits, h.lock⟩

/-- The services or the env entries are refused. -/
def Bricked (fs : Files) : Prop :=
  loadServices initialServices (fs.content (.file .projects)) = .error .aborted ∨
    (∃ t, loadServices initialServices (fs.content (.file .projects)) = .ok t) ∧
      (∃ t, loadJobs initialJobs (fs.content (.file .jobs)) = .ok t) ∧
        loadEnvs initialEnvs (fs.content (.file .env)) = .error .aborted

def Stands (fs : Files) : Option Database → Prop
  | some d => Holds fs d.toTables
  | none => Bricked fs

/-! ## Files that are refused -/

/-- The text of services that are not apart is refused. -/
theorem loadServices_refused {l : List Service} (hl : ∀ s ∈ l, Services.Entry s)
    (hd : ¬DistinctServices l) :
    loadServices initialServices (servicesText l) = .error .aborted := by
  have hok : ∀ s ∈ l, servicesFormat.Ok s := fun s hs => (hl s hs).ok
  have htext : servicesText l = servicesFormat.textAll l := by
    rw [servicesText_eq fun s hs _ => (hl s hs).fits, Services.filter_cloned hl]
  have hiff := servicesFormat.parse_text_iff (services_loads l.length) (t := initialServices)
    (Table.honest_alloc _) rfl hok le_rfl
  have hid : l.map servicesFormat.readBack = l := List.map_id l
  rw [hid] at hiff
  have hparse := servicesFormat.parse_textAll hok initialServices
  rw [hid] at hparse
  have hload : loadServices initialServices (servicesText l) =
      l.foldlM servicesFormat.load initialServices := by
    rw [htext]
    exact hparse
  cases hrun : l.foldlM servicesFormat.load initialServices with
  | ok t => exact absurd (hiff.mp ⟨t, hparse.trans hrun⟩) hd
  | error e =>
    rw [hload, hrun]
    refine congrArg Except.error ((services_loads l.length).foldlM_aborted (fun hR _ h => ?_)
      (Table.honest_alloc _) (Nat.zero_add _).le hrun)
    obtain ⟨t', ht', -⟩ := hR.append serviceGrowth_safe _
    exact Clib.Loads.insert_aborted ⟨t', ht'⟩ h

/-- So is that of env entries which are read back alike. -/
theorem loadEnvs_refused {l : List Env} (hl : ∀ e ∈ l, e.Savable) (hlen : l.length ≤ envLimit)
    (hd : ¬DistinctEnvs (rereadEnvs l)) :
    loadEnvs initialEnvs (envsText l) = .error .aborted := by
  have hok : ∀ e ∈ rereadEnvs l, envsFormat.Ok e := ok_rereadEnvs hl
  have hid : (rereadEnvs l).map envsFormat.readBack = rereadEnvs l := List.map_id _
  have hparse := envsFormat.parse_textAll hok initialEnvs
  rw [hid] at hparse
  have hload : loadEnvs initialEnvs (envsText l) =
      (rereadEnvs l).foldlM envsFormat.load initialEnvs := by
    rw [loadEnvs_textAll hl, envsText_eq]
    exact hparse
  cases hrun : (rereadEnvs l).foldlM envsFormat.load initialEnvs with
  | ok t => exact absurd ((loadEnvs_rereadEnvs hl hlen).1.mp ⟨t, hload.trans hrun⟩) hd
  | error e =>
    rw [hload, hrun]
    refine congrArg Except.error (envs_loads.foldlM_aborted (fun hR hroom h => ?_)
      envBlock_initialEnvs ?_ hrun)
    · obtain ⟨t', ht', -⟩ := hR.append _ hroom
      exact Clib.Loads.insert_aborted ⟨t', ht'⟩ h
    · rw [length_rereadEnvs]
      exact (Nat.zero_add _).trans_le hlen

/-- **No constructor gets past them**, and it writes none of them. -/
theorem wp_init_bricked (h : Bricked fs) (w : W) :
    Exec.wp init (fun _ _ => False)
      (fun e p => e = .aborted ∧ SameBut [.file .updateStatus] fs p.files)
      (Process.start fs w) := by
  have hprojects : Path.file .projects ≠ .file .updateStatus := by decide
  have hjobs : Path.file .jobs ≠ .file .updateStatus := by decide
  have henv : Path.file .env ≠ .file .updateStatus := by decide
  have hsame : ∀ {q : Path}, q ∉ [Path.file .updateStatus] →
      (initiateMemoryPtr fs).content q = fs.content q := fun hq => by
    rw [content_initiateMemoryPtr, if_neg (by simpa using hq)]
  simp only [init, readStore, Process.start, Exec.wp_bind, wp_onFiles, Exec.wp_modify, Exec.wp_get,
    Exec.wp_pure, FileStore.content_openCreate, content_initiateMemoryPtr, if_neg hprojects]
  rcases h with hservices | ⟨⟨services, hservices⟩, ⟨jobs, hload⟩, hrefused⟩
  · rw [hservices, Exec.wp_ofExcept_error]
    exact ⟨rfl, fun q hq => by rw [FileStore.content_openCreate, hsame hq]⟩
  · rw [hservices, Exec.wp_ofExcept_ok]
    simp only [FileStore.content_openCreate, content_initiateMemoryPtr, if_neg hjobs]
    rw [hload, Exec.wp_ofExcept_ok]
    simp only [FileStore.content_openCreate, content_initiateMemoryPtr, if_neg henv]
    rw [hrefused, Exec.wp_ofExcept_error]
    exact ⟨rfl, fun q hq => by simp only [FileStore.content_openCreate, hsame hq]⟩

theorem Bricked.congr {fs' : Files} (h : SameBut [.file .updateStatus] fs fs')
    (hb : Bricked fs) : Bricked fs' := by
  unfold Bricked
  rw [h (.file .projects) (by decide), h (.file .jobs) (by decide), h (.file .env) (by decide)]
  exact hb

/-! ## Closing -/

theorem lockFree_saveState {p : Process W} (h : LockFree p.files) :
    Exec.wp saveState (fun _ p' => LockFree p'.files) (fun _ _ => True) p := by
  simp only [saveState, Exec.wp_bind, Exec.wp_get, wp_onFiles]
  refine Exec.wp_mono (wp_saveServices p.services (fun _ _ => True) p.files) ?_
    fun _ _ _ => trivial
  rintro rc fs₁ ⟨rfl, -, hsame⟩
  have hlock : LockFree fs₁ := (LockFree.congr (hsame _ (by decide))).mpr h
  simp only [ne_eq, not_true_eq_false, if_false, Exec.wp_bind, wp_onFiles]
  refine Exec.wp_mono (wp_saveJobs p.jobs fs₁) ?_ fun _ _ _ => trivial
  rintro rc fs₂ ⟨rfl, -, -, hkeeps, -⟩
  simp only [not_true_eq_false, if_false, Exec.wp_pure]
  exact hkeeps hlock

/-- A destructor that does not wait leaves the lock free. -/
theorem lockFree_closeProcess {p : Process W} (h : LockFree p.files) :
    Exec.wp closeProcess (fun _ p' => LockFree p'.files)
      (fun e p' => e = .aborted → LockFree p'.files) p := by
  have hrest : ∀ {p₁ : Process W}, LockFree p₁.files →
      Exec.wp saveRest (fun _ p' => LockFree p'.files)
        (fun e p' => e = .aborted → LockFree p'.files) p₁ := fun h₁ =>
    Exec.wp_mono (wp_saveRest _)
      (fun _ _ hrest => (LockFree.congr (hrest.2.2.2 _ (by decide))).mpr h₁)
      fun _ _ hrest _ => (LockFree.congr (hrest.2.2.2.2 _ (by decide))).mpr h₁
  have hstate : Exec.wp saveState (fun _ p' => LockFree p'.files) (fun e _ => e = .blocked) p :=
    Exec.wp_mono (Exec.wp_and (lockFree_saveState h) (wp_saveState p)) (fun _ _ h₁ => h₁.1)
      fun _ _ he => he.2.1
  simp only [closeProcess, Exec.wp_bind, Exec.wp_get, Exec.wp_ite]
  refine ⟨fun _ => Exec.wp_mono hstate (fun _ _ h₁ => hrest h₁) ?_, fun _ => hrest h⟩
  rintro e p' rfl he
  cases he

/-- What a process has to save when its command has returned. -/
structure Due (fs : Files) (d : Tables) (p : Process W) (T : Tables) : Prop where
  state : p.reformatState = true
  files : ∀ s ∈ [Store.projects, .jobsSync, .limits],
    p.files.content (.file s) = fs.content (.file s)
  /-- The services, with one behind them, perhaps, that was not cloned. -/
  services : p.services.items = T.services ∨ T.services = d.services ∧ ∃ githubRepo nickName,
    p.services.items = d.services ++ [addedService githubRepo nickName false]
  jobs : p.jobs.items = T.jobs
  envs : p.envs.items = T.envs
  limits : if p.reformatLimits then p.limits.items = T.limits else T.limits = d.limits

variable {p : Process W}

/-- What the projects file is left with. -/
theorem Due.savedProjects (h : Due fs d p T) (hrests : Rests fs d) (hT : T.Savable) :
    (DistinctServices T.services →
      ∃ t, loadServices initialServices (savedProjects p.files p.services.items) = .ok t ∧
        t.items = T.services) ∧
    (¬DistinctServices T.services →
      loadServices initialServices (savedProjects p.files p.services.items) =
        .error .aborted) := by
  have hcloned := Services.filter_cloned hT.services
  have hload : DistinctServices T.services →
      ∃ t, loadServices initialServices (servicesText T.services) = .ok t ∧
        t.items = T.services := fun hd => by
    obtain ⟨t, ht, hitems⟩ := loadServices_servicesText (fun s hs _ => (hT.services s hs).ok)
      (fun s hs _ => (hT.services s hs).fits) (hcloned.symm ▸ hd)
    exact ⟨t, ht, hitems.trans hcloned⟩
  rcases h.services with hitems | ⟨hsame, githubRepo, nickName, hitems⟩
  · rw [hitems, savedProjects_of_cloned fun s hs => (hT.services s hs).ok.cloned]
    exact ⟨hload, loadServices_refused hT.services⟩
  · -- the new entry is at the end and is not saved
    have hentries : ∀ s ∈ d.services, Services.Entry s := hsame ▸ hT.services
    obtain ⟨t, ht, htable⟩ := hrests.services
    have hapart : DistinctServices T.services := by
      rw [hsame, ← htable]
      exact (loadServices_sound ht).2.1
    refine ⟨fun _ => ?_, fun hno => absurd hapart hno⟩
    rw [MiniRunner.savedProjects]
    split
    · rw [h.files .projects (by simp)]
      exact ⟨t, ht, htable.trans hsame.symm⟩
    · rw [hitems, Services.savedText_uncloned, ← hsame]
      exact hload hapart

theorem Due.not_overfull (h : Due fs d p T) (hT : T.Savable) : ¬p.Overfull := by
  rintro ⟨hflag, hmany⟩
  have hlimits := h.limits
  rw [if_pos hflag] at hlimits
  rw [hlimits] at hmany
  have := hT.oneLimit
  omega

/-- What the limits file is left with. -/
theorem Due.savedLimits (h : Due fs d p T) (hrests : Rests fs d)
    (hmemory : ∀ l ∈ d.limits, l.memory.toNat < 2 ^ 63) (hT : T.Savable) :
    ∃ t, initLimits initialLimits (savedLimits p p.files) = .ok t ∧ t.items = T.reread.limits := by
  have hover := h.not_overfull hT
  have hlimits := h.limits
  rw [MiniRunner.savedLimits]
  simp only [hover, not_false_eq_true, and_true]
  split at hlimits
  · rename_i hflag
    have hdistinct : Distinct (limitClash · · = true) (T.limits.map limitsFormat.readBack) := by
      have hone := hT.oneLimit
      generalize T.limits = l at hone
      cases l with
      | nil => exact List.Pairwise.nil
      | cons x l =>
        obtain rfl : l = [] := by simpa using hone
        exact List.pairwise_singleton ..
    obtain ⟨t, ht, hitems, -⟩ := limitsFormat.parse_text limits_loads limitBlock_initialLimits
      rfl hT.limits hdistinct (hT.oneLimit.trans (by decide))
    rw [if_pos hflag, hlimits]
    exact ⟨t, ht, hitems⟩
  · rename_i hflag
    obtain ⟨t, ht, hitems⟩ := hrests.limits
    rw [if_neg hflag, h.files .limits (by simp)]
    refine ⟨t, ht, hitems.trans ?_⟩
    simp only [Tables.reread, hlimits, readBack_of_lt hmemory]

/-- **What a destructor makes of tables**: the files hold them as they are read back, or are
bricked. -/
structure Leaves (T : Tables) (fs : Files) : Prop where
  rests : DistinctServices T.services → Rests fs T.reread
  holds : T.reread.Apart → Holds fs T.reread
  bricked : ¬T.reread.Apart → Bricked fs

theorem Due.leaves (h : Due fs d p T) (hrests : Rests fs d)
    (hmemory : ∀ l ∈ d.limits, l.memory.toNat < 2 ^ 63) (hT : T.Savable) {fs' : Files}
    (hclosed : Closed p fs') (hfree : LockFree fs') : Leaves T fs' := by
  obtain ⟨hsaved, hrefused⟩ := h.savedProjects hrests hT
  have hprojects : fs'.content (.file .projects) =
      MiniRunner.savedProjects p.files p.services.items := by
    rw [hclosed.projects, if_pos h.state]
  have hjobs : ∃ t, loadJobs initialJobs (fs'.content (.file .jobs)) = .ok t ∧
      t.items = T.jobs := by
    rw [hclosed.jobs, if_pos h.state, h.jobs]
    obtain ⟨t, ht, hitems, -⟩ := loadJobs_jobsText (t := initialJobs) (Table.honest_alloc _) rfl
      hT.jobs hT.jobsApart
    exact ⟨t, ht, hitems⟩
  have henv : fs'.content (.file .env) = envsText T.envs := by
    rw [hclosed.env, h.envs]
  have hlimits := h.savedLimits hrests hmemory hT
  rw [← hclosed.limits] at hlimits
  obtain ⟨henvsLoad, henvsItems⟩ := loadEnvs_rereadEnvs hT.envs hT.envsFit
  refine ⟨fun hservices => ⟨hprojects ▸ hsaved hservices, hlimits, hfree⟩, ?_, ?_⟩
  · rintro ⟨hservices, henvs⟩
    obtain ⟨envs, hload⟩ := henvsLoad.mpr henvs
    exact ⟨hprojects ▸ hsaved hservices, hjobs, ⟨envs, henv ▸ hload, henvsItems envs hload⟩,
      hlimits, hfree⟩
  · intro hno
    by_cases hservices : DistinctServices T.services
    · obtain ⟨t, ht, -⟩ := hsaved hservices
      obtain ⟨t', ht', -⟩ := hjobs
      refine .inr ⟨⟨t, hprojects ▸ ht⟩, ⟨t', ht'⟩, henv ▸ loadEnvs_refused hT.envs hT.envsFit ?_⟩
      exact fun henvs => hno ⟨hservices, henvs⟩
    · exact .inl (hprojects ▸ hrefused hservices)

/-- **A process that can save what is due** gets to its end. -/
theorem Due.wp_closeProcess (h : Due fs d p T) (hrests : Rests fs d)
    (hmemory : ∀ l ∈ d.limits, l.memory.toNat < 2 ^ 63) (hT : T.Savable) :
    Exec.wp closeProcess (fun _ p' => Leaves T p'.files) (fun _ _ => False) p := by
  have hlock : LockFree p.files := (LockFree.congr (h.files .jobsSync (by simp))).mpr hrests.lock
  refine Exec.wp_mono (Exec.wp_and (MiniRunner.wp_closeProcess p) (lockFree_closeProcess hlock))
    ?_ ?_
  · rintro _ p' ⟨⟨-, hclosed⟩, hfree⟩
    exact h.leaves hrests hmemory hT hclosed hfree
  · rintro e p' ⟨⟨-, -, -, hno⟩ | ⟨-, hover, -⟩, -⟩
    · exact hno hlock
    · exact h.not_overfull hT hover

/-- A process that can save all but its limits. -/
structure Crowded (fs : Files) (d : Tables) (p : Process W) (T : Tables) : Prop where
  overfull : p.Overfull
  due : Due fs d { p with reformatLimits := false } T

theorem Closed.unmarked {fs' : Files} (h : Closed p fs') (hover : p.Overfull) :
    Closed { p with reformatLimits := false } fs' := by
  have hlimits := h.limits
  rw [savedLimits_of_overfull hover] at hlimits
  exact ⟨h.projects, h.jobs, h.env, hlimits.trans (savedLimits_of_unmarked rfl _).symm, h.unlocked,
    h.files⟩

/-- **A process with a limit too many** aborts, and has saved the rest. -/
theorem Crowded.wp_closeProcess (h : Crowded fs d p T) (hrests : Rests fs d)
    (hmemory : ∀ l ∈ d.limits, l.memory.toNat < 2 ^ 63) (hT : T.Savable) :
    Exec.wp closeProcess (fun _ _ => False) (fun e p' => e = .aborted ∧ Leaves T p'.files) p := by
  have hlock : LockFree p.files :=
    (LockFree.congr (h.due.files .jobsSync (by simp))).mpr hrests.lock
  refine Exec.wp_mono (Exec.wp_and (MiniRunner.wp_closeProcess p) (lockFree_closeProcess hlock))
    ?_ ?_
  · rintro _ p' ⟨⟨hno, -⟩, -⟩
    exact hno h.overfull
  · rintro e p' ⟨⟨-, -, -, hno⟩ | ⟨he, -, hclosed⟩, hfree⟩
    · exact absurd hlock hno
    · exact ⟨he, h.due.leaves hrests hmemory hT (Closed.unmarked hclosed h.overfull) (hfree he)⟩

end MiniRunner.System
