import MiniRunner.Main

/-!
# Time shifts

`time_shift/`. `time-shift create` copies eight of the nine stores, with their
`.backup` files, from `data` to `backup`; `time-shift apply` copies them back. Three
things stand between the two: `doBackup` leaves the destination of an empty source
alone, the limits are in no pair, and both commands run inside a process whose
destructor writes tables of its own.

`restores_iff` says for which contents a created time shift comes back.
-/

namespace MiniRunner

open Clib Process

variable {W : Type}

/-! ## The commands -/

/-- The stores of `time_shift/config.h`, in the order they are copied. -/
def shiftStores : List Store :=
  [.jobCpuLimit, .jobDaemonPid, .jobMemLimit, .jobs, .jobsSync, .projects, .updateStatus, .env]

/-- Each store is followed by its `.backup` file. -/
def shiftFiles : List (Store × Bool) := shiftStores.flatMap fun s => [(s, false), (s, true)]

/-- The chain of `doBackup`s between two places, up to the first that fails. -/
def copyAll (source dest : Place) : List (Store × Bool) → Exec Files Bool
  | [] => pure true
  | (s, copy) :: rest => do
    if (← doBackup ⟨source, s, copy⟩ ⟨dest, s, copy⟩) ≠ 0 then pure false
    else copyAll source dest rest

def createTimeShift : Exec Files Int := do
  if (← copyAll .data .backup shiftFiles) = false then pure (-1) else pure 0

def loadCloneServices : Table Service → Bytes → Except Halt (Table Service) := loadServices

/-- For each restored service, rename the folder and the cgroup of the one that has
its repo under another name. Failures are only printed. -/
def renameMoved (sys : Calls W) (services : List Service) : List Service → Exec (Process W) Unit
  | [] => pure ()
  | clone :: rest => do
    match services.find? (fun s => s.githubRepo == clone.githubRepo && s.name != clone.name) with
    | none => renameMoved sys services rest
    | some s => do
      let _ ← call (sys.renameFolder s.name clone.name)
      let _ ← call (sys.renameCgrp s.name clone.name clone.pid)
      renameMoved sys services rest

def applyTimeShift (sys : Calls W) : Exec (Process W) Int := do
  if (← onFiles (copyAll .backup .data shiftFiles)) = false then pure (-1)
  else
    onFiles (modify (·.openCreate (.file .projects)))
    let p ← get
    let servicesClone ← Exec.ofExcept
      (loadCloneServices initialServices (p.files.content (.file .projects)))
    renameMoved sys p.services.items servicesClone.items
    pure 0

/-- `time-shift create`. -/
def timeShiftCreate : Exec (Process W) Int := failing (onFiles createTimeShift)

/-- `time-shift apply`: the destructor must not save the services and jobs it holds. -/
def timeShiftApply (sys : Calls W) : Exec (Process W) Int := do
  if (← applyTimeShift sys) ≠ 0 then pure 1
  else
    modify fun p => { p with reformatState := false }
    pure 0

/-! ## Copying between the places -/

/-- **The chain copies every non-empty file** of its list and changes nothing else. -/
theorem wp_copyAll {source dest : Place} (hne : source ≠ dest) (E : Halt → Files → Prop)
    (pairs : List (Store × Bool)) :
    ∀ fs : Files, Exec.wp (copyAll source dest pairs)
      (fun done fs' => done = true ∧ ∀ q : Path, fs'.content q =
        if q.place = dest ∧ (q.store, q.copy) ∈ pairs ∧ fs.content ⟨source, q.store, q.copy⟩ ≠ []
        then fs.content ⟨source, q.store, q.copy⟩ else fs.content q) E fs := by
  induction pairs with
  | nil =>
    intro fs
    simp [copyAll]
  | cons pair pairs ih =>
    obtain ⟨s, copy⟩ := pair
    intro fs
    simp only [copyAll, Exec.wp_bind, wp_doBackup, ne_eq, not_true_eq_false, if_false]
    refine Exec.wp_mono (ih _) ?_ fun _ _ h => h
    rintro done fs' ⟨hdone, hfs'⟩
    refine ⟨hdone, fun q => ?_⟩
    -- no source is the destination of a pair
    have hsource : ∀ (s' : Store) (copy' : Bool),
        (doBackupFiles ⟨source, s, copy⟩ ⟨dest, s, copy⟩ fs).content ⟨source, s', copy'⟩ =
          fs.content ⟨source, s', copy'⟩ := by
      intro s' copy'
      rw [content_doBackupFiles, if_neg]
      simp [hne]
    rw [hfs', hsource, content_doBackupFiles]
    obtain ⟨place, s', copy'⟩ := q
    simp only [Path.mk.injEq, List.mem_cons, Prod.mk.injEq]
    by_cases hpair : s' = s ∧ copy' = copy
    · obtain ⟨rfl, rfl⟩ := hpair
      by_cases hplace : place = dest <;> by_cases hnil : fs.content ⟨source, s', copy'⟩ = [] <;>
        simp [hplace, hnil]
    · simp [hpair]

/-! ## What a shift takes and puts back -/

def textOf (fs : Files) (s : Store) : Bytes :=
  if s = .updateStatus then statusText fs else fs.content (.file s)

/-- What the chain of copies leaves in a file. -/
def shifted (source dest : Place) (fs : Files) (q : Path) : Bytes :=
  if q.place = dest ∧ (q.store, q.copy) ∈ shiftFiles ∧
      fs.content ⟨source, q.store, q.copy⟩ ≠ [] then fs.content ⟨source, q.store, q.copy⟩
  else fs.content q

theorem wp_completes {body : Exec (Process W) Int} {fs fs' : Files} (h : Completes body fs fs')
    {M : Process W → Prop}
    (hbody : ∀ w p, Loaded fs w p → Exec.wp body (fun _ p' => M p') (fun _ _ => True) p) :
    ∃ p', M p' ∧ Closed p' fs' := by
  obtain ⟨w, p, hrun, rfl⟩ := h
  have hwhole : Exec.wp (wholeProcess body)
      (fun _ p => ∃ p', M p' ∧ Closed p' p.files) (fun _ _ => True) (Process.start fs w) := by
    simp only [wholeProcess, Exec.wp_bind, Exec.wp_pure]
    refine Exec.wp_mono (wp_init fs w) (fun _ p hp => ?_) fun _ _ _ => trivial
    refine Exec.wp_mono (hbody w p hp) (fun _ p' hp' => ?_) fun _ _ _ => trivial
    exact Exec.wp_mono (wp_closeProcess p') (fun _ _ h => ⟨p', hp', h.2⟩) fun _ _ _ => trivial
  exact Exec.wp_run_ok hwhole hrun

theorem Loaded.content {fs : Files} {w : W} {p : Process W} (h : Loaded fs w p) (s : Store) :
    p.files.content (.file s) = textOf fs s := by
  unfold textOf
  split
  · rename_i hs
    rw [hs, h.status]
  · rename_i hs
    exact h.files _ (by simp [hs])

theorem Loaded.content_backup {fs : Files} {w : W} {p : Process W} (h : Loaded fs w p) {q : Path}
    (hq : q.place = .backup) : p.files.content q = fs.content q := by
  refine h.files q ?_
  simp only [List.mem_cons, List.not_mem_nil, or_false, not_or]
  exact ⟨fun e => by simp [e] at hq, fun e => by simp [e] at hq, fun e => by simp [e] at hq⟩

theorem wp_timeShiftCreate (p : Process W) :
    Exec.wp timeShiftCreate
      (fun _ p' => ∃ fs, p' = { p with files := fs } ∧
        ∀ q, fs.content q = shifted .data .backup p.files q) (fun _ _ => False) p := by
  simp only [timeShiftCreate, failing, createTimeShift, Exec.wp_bind, wp_onFiles]
  refine Exec.wp_mono (wp_copyAll (by decide) _ shiftFiles p.files) ?_ fun _ _ h => h
  rintro done fs ⟨rfl, hfs⟩
  simp only [Bool.true_eq_false, if_false, Exec.wp_pure, ne_eq, not_true_eq_false]
  exact ⟨fs, rfl, hfs⟩

theorem wp_renameMoved (sys : Calls W) (services clones : List Service)
    {Q : Unit → Process W → Prop} {E : Halt → Process W → Prop} :
    ∀ {p : Process W}, (∀ w, Q () { p with world := w }) →
      Exec.wp (renameMoved sys services clones) Q E p := by
  induction clones with
  | nil => exact fun h => (Exec.wp_pure _).mpr (h _)
  | cons clone clones ih =>
    intro p h
    unfold renameMoved
    split
    · exact ih h
    · simp only [Exec.wp_bind, wp_call]
      exact ih fun w => h w

theorem wp_timeShiftApply (sys : Calls W) (p : Process W) :
    Exec.wp (timeShiftApply sys)
      (fun _ p' => ∃ fs w, p' = { p with files := fs, world := w, reformatState := false } ∧
        ∀ q, fs.content q = shifted .backup .data p.files q) (fun _ _ => True) p := by
  simp only [timeShiftApply, applyTimeShift, Exec.wp_bind, wp_onFiles]
  refine Exec.wp_mono (wp_copyAll (by decide) (fun _ _ => True) shiftFiles p.files) ?_
    fun _ _ h => trivial
  rintro done fs ⟨rfl, hfs⟩
  simp only [Bool.true_eq_false, if_false, Exec.wp_bind, wp_onFiles, Exec.wp_modify, Exec.wp_get]
  refine (Exec.wp_ofExcept _).mpr ⟨fun t _ => ?_, fun _ _ => trivial⟩
  refine wp_renameMoved sys _ _ fun w => ?_
  simp only [Exec.wp_pure, ne_eq, not_true_eq_false, if_false, Exec.wp_bind, Exec.wp_modify]
  exact ⟨_, w, rfl, fun q => (FileStore.content_openCreate _ _ q).trans (hfs q)⟩

/-- **What `time-shift create` leaves**: the tables re-encoded in `data`, the non-empty
stores in `backup`. -/
structure Created (fs fs₁ : Files) : Prop where
  projects : ∃ t, loadServices initialServices (fs.content (.file .projects)) = .ok t ∧
    fs₁.content (.file .projects) = servicesText t.items
  jobs : ∃ t, loadJobs initialJobs (fs.content (.file .jobs)) = .ok t ∧
    fs₁.content (.file .jobs) = jobsText t.items
  env : ∃ t, loadEnvs initialEnvs (fs.content (.file .env)) = .ok t ∧
    fs₁.content (.file .env) = envsText t.items
  rest : ∀ s ∈ [Store.limits, .jobCpuLimit, .jobMemLimit, .updateStatus],
    fs₁.content (.file s) = textOf fs s
  backup : ∀ s ∈ shiftStores, fs₁.content (.fileBackup s) =
    if textOf fs s ≠ [] then textOf fs s else fs.content (.fileBackup s)

theorem mem_shiftFiles {s : Store} {copy : Bool} : (s, copy) ∈ shiftFiles ↔ s ∈ shiftStores := by
  cases copy <;> simp [shiftFiles]

theorem created_of_completes {fs fs₁ : Files}
    (h : Completes (timeShiftCreate (W := W)) fs fs₁) : Created fs fs₁ := by
  obtain ⟨p', ⟨w, p, hp, fs', rfl, hfs'⟩, hclosed⟩ := wp_completes h
    (M := fun p' => ∃ w p, Loaded fs w p ∧ ∃ fs', p' = { p with files := fs' } ∧
      ∀ q, fs'.content q = shifted .data .backup p.files q)
    fun w p hp => Exec.wp_mono (wp_timeShiftCreate p) (fun _ p' h => ⟨w, p, hp, h⟩)
      fun _ _ _ => trivial
  have hdata : ∀ s, fs'.content (.file s) = textOf fs s := by
    intro s
    rw [hfs', shifted, if_neg (by simp), hp.content]
  refine ⟨⟨p.services, hp.services, ?_⟩, ⟨p.jobs, hp.jobs, ?_⟩, ⟨p.envs, hp.envs, hclosed.env⟩,
    fun s hs => ?_, fun s hs => ?_⟩
  · rw [hclosed.projects, if_pos hp.reformatState]
    exact savedProjects_of_cloned
      (fun s hs => ((loadServices_sound hp.services).1 s hs).cloned) _
  · rw [hclosed.jobs, if_pos hp.reformatState]
  · by_cases hlim : s = .limits
    · rw [hlim]
      refine hclosed.limits.trans ((savedLimits_of_unmarked ?_ _).trans (hdata .limits))
      exact hp.reformatLimits
    · have hkept : Path.file s ∉ statePaths ++
          [.file .env, .fileCopy .env, .file .limits, .fileCopy .limits] := by
        simp at hs
        rcases hs with rfl | rfl | rfl | rfl <;> simp_all [statePaths]
      rw [hclosed.files _ hkept]
      exact hdata s
  · rw [hclosed.files _ (by simp [statePaths])]
    show fs'.content _ = _
    rw [hfs', shifted]
    simp only [mem_shiftFiles, hs, true_and]
    rw [hp.content, hp.content_backup rfl]

/-- The stores a shift both takes and leaves alone afterwards. -/
def restored : List Store := [.projects, .jobs, .jobCpuLimit, .jobMemLimit, .updateStatus]

/-- **What `time-shift apply` leaves**: the non-empty stores of `backup`, the env
entries and the limits that were there before it. -/
structure Applied (fs₂ fs₃ : Files) : Prop where
  env : ∃ t, loadEnvs initialEnvs (fs₂.content (.file .env)) = .ok t ∧
    fs₃.content (.file .env) = envsText t.items
  limits : fs₃.content (.file .limits) = fs₂.content (.file .limits)
  rest : ∀ s ∈ restored,
    fs₃.content (.file s) =
      if fs₂.content (.fileBackup s) ≠ [] then fs₂.content (.fileBackup s) else textOf fs₂ s

theorem applied_of_completes {sys : Calls W} {fs₂ fs₃ : Files}
    (h : Completes (timeShiftApply sys) fs₂ fs₃) : Applied fs₂ fs₃ := by
  obtain ⟨p', ⟨w, p, hp, fs', w', rfl, hfs'⟩, hclosed⟩ := wp_completes h
    (M := fun p' => ∃ w p, Loaded fs₂ w p ∧ ∃ fs' w', p' = { p with
      files := fs', world := w', reformatState := false } ∧
      ∀ q, fs'.content q = shifted .backup .data p.files q)
    fun w p hp => Exec.wp_mono (wp_timeShiftApply sys p) (fun _ p' h => ⟨w, p, hp, h⟩)
      fun _ _ _ => trivial
  have hlimits : fs₃.content (.file .limits) = fs'.content (.file .limits) := by
    refine hclosed.limits.trans (savedLimits_of_unmarked ?_ _)
    exact hp.reformatLimits
  have hrest : ∀ s ∈ restored,
      fs₃.content (.file s) = fs'.content (.file s) ∧ s ∈ shiftStores := by
    intro s hs
    simp only [restored, List.mem_cons, List.not_mem_nil, or_false] at hs
    obtain rfl | rfl | rfl | rfl | rfl := hs
    · exact ⟨hclosed.projects, by decide⟩
    · exact ⟨hclosed.jobs, by decide⟩
    all_goals exact ⟨hclosed.files _ (by decide), by decide⟩
  refine ⟨⟨p.envs, hp.envs, hclosed.env⟩, ?_, fun s hs => ?_⟩
  · rw [hlimits, hfs', shifted, if_neg (by simp [mem_shiftFiles, shiftStores]), hp.content]
    rfl
  · rw [(hrest s hs).1, hfs', shifted]
    simp only [mem_shiftFiles, (hrest s hs).2, true_and]
    rw [hp.content_backup rfl, hp.content]

/-! ## When a shift comes back -/

def persisted : List Store :=
  [.projects, .jobs, .env, .limits, .jobCpuLimit, .jobMemLimit, .updateStatus]

/-- **When a created time shift can be put back**: for the contents `fs` at the start of
the creating process and `fs₂` at the start of the applying one. -/
structure Restorable (fs fs₂ : Files) : Prop where
  /-- The limits have not changed. -/
  limits : fs₂.content (.file .limits) = fs.content (.file .limits)
  /-- The env entries have not changed. -/
  env : ∀ t t₂, loadEnvs initialEnvs (fs.content (.file .env)) = .ok t →
    loadEnvs initialEnvs (fs₂.content (.file .env)) = .ok t₂ → envsText t₂.items = envsText t.items
  /-- The services and the jobs were stored as the program stores them. -/
  projects : ∀ t, loadServices initialServices (fs.content (.file .projects)) = .ok t →
    servicesText t.items = fs.content (.file .projects)
  jobs : ∀ t, loadJobs initialJobs (fs.content (.file .jobs)) = .ok t →
    jobsText t.items = fs.content (.file .jobs)
  /-- A store that was empty has no older copy, and is still empty. -/
  empty : ∀ s ∈ restored, textOf fs s = [] →
    fs.content (.fileBackup s) = [] ∧ textOf fs₂ s = []

theorem store_back_iff {old taken left later : Bytes} (hnil : taken = [] → left = []) :
    (if (if taken ≠ [] then taken else old) ≠ [] then (if taken ≠ [] then taken else old)
      else later) = left ↔
    left = taken ∧ (taken = [] → old = [] ∧ later = []) := by
  by_cases ht : taken = []
  · subst ht
    simp only [ne_eq, not_true_eq_false, if_false, hnil rfl, true_and, forall_const]
    by_cases ho : old = [] <;> simp [ho]
  · simp [ht, eq_comm]

theorem Created.left_nil {fs fs₁ : Files} (h : Created fs fs₁) {s : Store} (hs : s ∈ restored)
    (hnil : textOf fs s = []) : fs₁.content (.file s) = [] := by
  simp only [restored, List.mem_cons, List.not_mem_nil, or_false] at hs
  obtain rfl | rfl | hs := hs
  · obtain ⟨t, hload, hfile⟩ := h.projects
    rw [show fs.content (.file .projects) = [] from hnil] at hload
    cases hload
    exact hfile
  · obtain ⟨t, hload, hfile⟩ := h.jobs
    rw [show fs.content (.file .jobs) = [] from hnil] at hload
    cases hload
    exact hfile
  · rw [h.rest s (by simp [hs]), hnil]

theorem store_restored_iff {fs fs₁ fs₂ fs₃ : Files} (hcreated : Created fs fs₁)
    (hbackup : ∀ s, fs₂.content (.fileBackup s) = fs₁.content (.fileBackup s))
    (happlied : Applied fs₂ fs₃) {s : Store} (hs : s ∈ restored) :
    fs₃.content (.file s) = fs₁.content (.file s) ↔
      fs₁.content (.file s) = textOf fs s ∧
        (textOf fs s = [] → fs.content (.fileBackup s) = [] ∧ textOf fs₂ s = []) := by
  have hshift : s ∈ shiftStores := by
    revert s
    decide
  rw [happlied.rest s hs, hbackup, hcreated.backup s hshift]
  exact store_back_iff (hcreated.left_nil hs)

theorem restorable_of_restored {fs fs₁ fs₂ fs₃ : Files} (hcreated : Created fs fs₁)
    (hbackup : ∀ s, fs₂.content (.fileBackup s) = fs₁.content (.fileBackup s))
    (happlied : Applied fs₂ fs₃)
    (h : ∀ s ∈ persisted, fs₃.content (.file s) = fs₁.content (.file s)) : Restorable fs fs₂ := by
  have hstore : ∀ s ∈ restored, fs₁.content (.file s) = textOf fs s ∧
      (textOf fs s = [] → fs.content (.fileBackup s) = [] ∧ textOf fs₂ s = []) := by
    intro s hs
    exact (store_restored_iff hcreated hbackup happlied hs).mp (h s (by revert s; decide))
  refine ⟨?_, fun t t₂ ht ht₂ => ?_, fun t ht => ?_, fun t ht => ?_, fun s hs => (hstore s hs).2⟩
  · rw [← happlied.limits, h .limits (by decide)]
    exact hcreated.rest .limits (by decide)
  · obtain ⟨u, hu, hfile⟩ := hcreated.env
    obtain ⟨u₂, hu₂, hfile₂⟩ := happlied.env
    cases hu.symm.trans ht
    cases hu₂.symm.trans ht₂
    rw [← hfile₂, h .env (by decide), hfile]
  · obtain ⟨u, hu, hfile⟩ := hcreated.projects
    cases hu.symm.trans ht
    exact hfile.symm.trans (hstore .projects (by decide)).1
  · obtain ⟨u, hu, hfile⟩ := hcreated.jobs
    cases hu.symm.trans ht
    exact hfile.symm.trans (hstore .jobs (by decide)).1

theorem restored_of_restorable {fs fs₁ fs₂ fs₃ : Files} (hcreated : Created fs fs₁)
    (hbackup : ∀ s, fs₂.content (.fileBackup s) = fs₁.content (.fileBackup s))
    (happlied : Applied fs₂ fs₃) (h : Restorable fs fs₂) :
    ∀ s ∈ persisted, fs₃.content (.file s) = fs₁.content (.file s) := by
  have hstore : ∀ s ∈ restored, fs₁.content (.file s) = textOf fs s →
      fs₃.content (.file s) = fs₁.content (.file s) := fun s hs hleft =>
    (store_restored_iff hcreated hbackup happlied hs).mpr ⟨hleft, h.empty s hs⟩
  intro s hs
  simp only [persisted, List.mem_cons, List.not_mem_nil, or_false] at hs
  obtain rfl | rfl | rfl | rfl | hs := hs
  · obtain ⟨t, ht, hfile⟩ := hcreated.projects
    exact hstore .projects (by decide) (hfile.trans (h.projects t ht))
  · obtain ⟨t, ht, hfile⟩ := hcreated.jobs
    exact hstore .jobs (by decide) (hfile.trans (h.jobs t ht))
  · obtain ⟨t, ht, hfile⟩ := hcreated.env
    obtain ⟨t₂, ht₂, hfile₂⟩ := happlied.env
    rw [hfile₂, hfile, h.env t t₂ ht ht₂]
  · rw [happlied.limits, h.limits]
    exact (hcreated.rest .limits (by decide)).symm
  · exact hstore s (by simp [restored, hs]) (hcreated.rest s (by simp [hs]))

/-- **Which time shifts come back.** Between a completed `time-shift create` and a
completed `time-shift apply` the data files may change in any way and the copies in
`backup` stay. Then the data files are again what they were when the creating process
ended exactly for a `Restorable` pair of contents. -/
theorem restores_iff {sys : Calls W} {fs fs₁ fs₂ fs₃ : Files}
    (hcreate : Completes (timeShiftCreate (W := W)) fs fs₁)
    (hbackup : ∀ s, fs₂.content (.fileBackup s) = fs₁.content (.fileBackup s))
    (happly : Completes (timeShiftApply sys) fs₂ fs₃) :
    (∀ s ∈ persisted, fs₃.content (.file s) = fs₁.content (.file s)) ↔ Restorable fs fs₂ :=
  ⟨restorable_of_restored (created_of_completes hcreate) hbackup (applied_of_completes happly),
    restored_of_restorable (created_of_completes hcreate) hbackup (applied_of_completes happly)⟩

def afterCreate : Files := filesAfter timeShiftCreate fun _ => none

/-- Later a limit was set on a service `a`. -/
def withLimit : Files := afterCreate.put (.file .limits) [97, 94, 49, 35, 49, 10]

theorem restores_iff_afterCreate :
    (∀ s ∈ persisted, (filesAfter (timeShiftApply (.allWell 1)) afterCreate).content (.file s) =
      afterCreate.content (.file s)) ↔ Restorable (fun _ => none) afterCreate :=
  restores_iff (completes_of_succeeds (by decide +kernel)) (fun _ => rfl)
    (completes_of_succeeds (by decide +kernel))

theorem not_restores_withLimit :
    ∃ fs₃, Completes (timeShiftCreate (W := Unit)) (fun _ => none) afterCreate ∧
      (∀ s, withLimit.content (.fileBackup s) = afterCreate.content (.fileBackup s)) ∧
      Completes (timeShiftApply (.allWell 1)) withLimit fs₃ ∧
      ¬∀ s ∈ persisted, fs₃.content (.file s) = afterCreate.content (.file s) := by
  refine ⟨filesAfter (timeShiftApply (.allWell 1)) withLimit,
    completes_of_succeeds (by decide +kernel), fun s => ?_,
    completes_of_succeeds (by decide +kernel), fun h => ?_⟩
  · exact FileStore.content_put_of_ne (by simp) _
  · exact absurd (h .limits (by decide)) (by decide +kernel)

end MiniRunner
