import MiniRunner.Fini
import MiniRunner.Ops.Launch

/-!
# One process of the program

`main.c`: the constructor `init` loads every table, `main` runs a command, and the
destructor `closeProcess` writes the tables back. A command that halts
(`exit_program` aborts) skips the destructor, so the files stay as the command
left them.

`Command` lists the commands that work on the four data files, with their operands
after number conversion: an interval in seconds, a cpu quota, an amount of memory
at the width of its type. `Command.run` is the branch of `main` for each, validators
and return codes included.
-/

namespace MiniRunner

open Clib Process

variable {W : Type}

/-! ## Constructor -/

/-- Before the constructor runs, every table is NULL. -/
def Process.start (files : Files) (world : W) : Process W where
  files := files
  world := world
  services := .blank initialScaleSizeOfServices 0
  jobs := .blank initialScaleSizeOfJobs 0
  envs := .blank initialScaleOfEnv 0
  limits := .blank initialScaleOfResLimit 0
  reformatState := true
  reformatLimits := false

/-- `initiateMemoryPtr`, for a missing update status. -/
def initiateMemoryPtr (fs : Files) : Files :=
  if (fs (.file .updateStatus)).isNone then fs.put (.file .updateStatus) idleText else fs

/-- Open a store, creating it, and read it. -/
def readStore (s : Store) : Exec (Process W) Bytes := do
  onFiles (modify (·.openCreate (.file s)))
  let p ← get
  pure (p.files.content (.file s))

def init : Exec (Process W) Unit := do
  onFiles (modify initiateMemoryPtr)
  let services ← Exec.ofExcept (loadServices initialServices (← readStore .projects))
  modify fun p => { p with services := services }
  let jobs ← Exec.ofExcept (loadJobs initialJobs (← readStore .jobs))
  modify fun p => { p with jobs := jobs }
  let envs ← Exec.ofExcept (loadEnvs initialEnvs (← readStore .env))
  modify fun p => { p with envs := envs }
  let limits ← Exec.ofExcept (initLimits initialLimits (← readStore .limits))
  modify fun p => { p with limits := limits }
  if (← onFiles (createBackup services.items.length)) ≠ 0 then throw .aborted
  else if (← onFiles (createBackupForJobs jobs.items.length)) ≠ 0 then throw .aborted
  else pure ()

/-! ## Destructor -/

/-- Save services and jobs; when either fails, put both backups back and give up. -/
def saveState : Exec (Process W) Unit := do
  let p ← get
  let rc ← onFiles (saveServices p.services)
  let rc ← if rc ≠ 0 then pure rc else onFiles (saveJobs p.jobs)
  if rc ≠ 0 then
    if (← onFiles (applyBackup p.services.items.length)) ≠ 0 then throw .aborted
    else if (← onFiles (applyBackupForjobs p.jobs.items.length)) ≠ 0 then throw .aborted
    else throw .aborted
  else pure ()

/-- Save the env entries, and the limits if a command marked them. -/
def saveRest : Exec (Process W) Unit := do
  let p ← get
  if (← onFiles (saveEnvs p.envs)) ≠ 0 then throw .aborted
  else if p.reformatLimits then
    if (← onFiles (saveLimits p.limits)) ≠ 0 then throw .aborted else pure ()
  else pure ()

def closeProcess : Exec (Process W) Unit := do
  let p ← get
  if p.reformatState then saveState
  saveRest

/-! ## Commands -/

inductive Command where
  | add (githubLink nickName : CStr)
  | remove (serviceName : CStr)
  | run (name : CStr) (bash : Option CStr) (attach : Bool)
  | stop (names : List CStr)
  | restart (serviceName : CStr) (bash : Option CStr) (attach : Bool)
  | rename (oldName newName : CStr)
  /-- `declined` is an `n` to the question that more than ten cores raise. -/
  | setLimit (serviceName : CStr) (cpu : Option (BitVec 64)) (declined : Bool)
      (mem : Option Amount)
  | addJob (jobName runnableFile : CStr) (timeInSeconds : BitVec 64)
  | removeJob (jobName : CStr)
  | addEnv (name key value : CStr)
  | updateEnv (name key value : CStr)
  | removeEnv (name key : CStr)
  deriving DecidableEq

/-- `if (op != 0) return 1;` -/
def failing (op : Exec (Process W) Int) : Exec (Process W) Int := do
  if (← op) ≠ 0 then pure 1 else pure 0

/-- `reformatLimits = true`. -/
def markLimits : Exec (Process W) Unit := modify fun p => { p with reformatLimits := true }

def Amount.isZero : Amount → Bool
  | .standard bytes => bytes == 0
  | .custom bytes => bytes == 0
  | .extreme bytes => bytes == 0

/-- The cpu half of `set-limit`. For the standard type success marks the limits for
saving, for the other two types failure does. -/
def setLimitCpu (sys : Calls W) (serviceName : CStr) (cpu : BitVec 64) (mem : Option Amount) :
    Exec (Process W) Int :=
  match mem with
  | none => do
    if (← setCpuResourceLimit sys serviceName cpu false (.standard 0)) ≠ 0 then pure 1
    else
      markLimits
      pure 0
  | some amount =>
    if amount.isZero then pure 1
    else
      match amount with
      | .standard bytes => do
        if (← setCpuResourceLimit sys serviceName cpu true (.standard bytes)) ≠ 0 then pure 1
        else
          markLimits
          pure 0
      | amount => do
        if (← setCpuResourceLimit sys serviceName cpu true amount) ≠ 0 then
          markLimits
          pure 1
        else pure 0

/-- The memory half of `set-limit`, without a cpu quota. -/
def setLimitMem (sys : Calls W) (serviceName : CStr) (amount : Amount) : Exec (Process W) Int :=
  if amount.isZero then pure 1
  else do
    if (← setMemoryLimit sys serviceName amount) ≠ 0 then pure 1
    else
      markLimits
      pure 0

def stopAll (sys : Calls W) : List CStr → Exec (Process W) Unit
  | [] => pure ()
  | name :: names => do
    let _ ← stopService sys name
    stopAll sys names

/-- The branch of `main` for a command, up to its return code. -/
def Command.exec (sys : Calls W) : Command → Exec (Process W) Int
  | .add githubLink nickName =>
    if isValidName nickName ≠ 0 then pure 1
    else if isValidGithubRepo githubLink ≠ 0 then pure 1
    else failing (addProject sys githubLink nickName)
  | .remove serviceName => do
    let _ ← normalDeleteServices sys serviceName
    markLimits
    pure 0
  | .run name bash attach =>
    if name.bytes = [] then pure 1
    else do
      let _ ← runService sys name bash attach
      pure 0
  | .stop names => do
    stopAll sys names
    pure 0
  | .restart serviceName bash attach => failing (restartService sys serviceName bash attach)
  | .rename oldName newName =>
    if isValidName newName ≠ 0 then pure 1
    else do
      renameService sys oldName newName
      markLimits
      pure 0
  | .setLimit serviceName cpu declined mem =>
    match cpu, mem with
    | some cpu, mem => if declined then pure 1 else setLimitCpu sys serviceName cpu mem
    | none, some amount => setLimitMem sys serviceName amount
    | none, none => pure 0
  | .addJob jobName runnableFile timeInSeconds =>
    if isValidJobName jobName = false then pure 1
    else if isValidJobPath runnableFile = false then pure 1
    else do
      if (← call (sys.fileExists runnableFile)) = false then pure 1
      else if timeInSeconds = 0 then pure 1
      else
        let now ← call sys.time
        failing (onJobs (createJob jobName runnableFile timeInSeconds now))
  | .removeJob jobName => failing (onJobs fun t => .ok (MiniRunner.removeJob jobName t))
  | .addEnv name key value =>
    if isValidEnvName name = false ∨ isValidEnvKey key = false ∨ isValidEnvValue value = false then
      pure 1
    else failing (onEnvs (MiniRunner.addEnv name key value))
  | .updateEnv name key value =>
    if isValidEnvName name = false ∨ isValidEnvKey key = false ∨ isValidEnvValue value = false then
      pure 1
    else failing (onEnvs fun t => .ok (MiniRunner.updateEnv name key value t))
  | .removeEnv name key => failing (onEnvs fun t => .ok (MiniRunner.removeEnv name key t))

/-! ## Process -/

/-- A whole process around a command body: constructor, body, destructor. -/
def wholeProcess (body : Exec (Process W) Int) : Exec (Process W) Int := do
  init
  let rc ← body
  closeProcess
  pure rc

/-- The files of complete processes that report success: from `fs` to `fs'`. -/
def Completes (body : Exec (Process W) Int) (fs fs' : Files) : Prop :=
  ∃ (w : W) (p : Process W),
    (wholeProcess body).run (Process.start fs w) = .ok 0 p ∧ p.files = fs'

/-- The files a process leaves, however it ends. -/
def filesAfter (body : Exec (Process Unit) Int) (fs : Files) : Files :=
  match (wholeProcess body).run (Process.start fs ()) with
  | .ok _ p => p.files
  | .error _ p => p.files

def succeeds (body : Exec (Process Unit) Int) (fs : Files) : Bool :=
  match (wholeProcess body).run (Process.start fs ()) with
  | .ok rc _ => rc == 0
  | .error _ _ => false

theorem completes_of_succeeds {body : Exec (Process Unit) Int} {fs : Files}
    (h : succeeds body fs = true) : Completes body fs (filesAfter body fs) := by
  unfold succeeds at h
  unfold Completes filesAfter
  split at h
  · rename_i rc p hrun
    exact ⟨(), p, by rw [hrun, eq_of_beq h], rfl⟩
  · cases h

/-! ## What the constructor and the destructor do -/

def Loads (fs : Files) : Prop :=
  (∃ t, loadServices initialServices (fs.content (.file .projects)) = .ok t) ∧
    (∃ t, loadJobs initialJobs (fs.content (.file .jobs)) = .ok t) ∧
    (∃ t, loadEnvs initialEnvs (fs.content (.file .env)) = .ok t) ∧
    ∃ t, initLimits initialLimits (fs.content (.file .limits)) = .ok t

/-- The update status once the constructor has seen it. -/
def statusText (fs : Files) : Bytes :=
  if (fs (.file .updateStatus)).isNone then idleText else fs.content (.file .updateStatus)

/-- **A process after its constructor.** -/
structure Loaded (fs : Files) (w : W) (p : Process W) : Prop where
  services : loadServices initialServices (fs.content (.file .projects)) = .ok p.services
  jobs : loadJobs initialJobs (fs.content (.file .jobs)) = .ok p.jobs
  envs : loadEnvs initialEnvs (fs.content (.file .env)) = .ok p.envs
  limits : initLimits initialLimits (fs.content (.file .limits)) = .ok p.limits
  world : p.world = w
  reformatState : p.reformatState = true
  reformatLimits : p.reformatLimits = false
  status : p.files.content (.file .updateStatus) = statusText fs
  files : SameBut [.file .updateStatus, .fileCopy .projects, .fileCopy .jobs] fs p.files

theorem content_initiateMemoryPtr (fs : Files) (q : Path) :
    (initiateMemoryPtr fs).content q =
      if q = .file .updateStatus then statusText fs else fs.content q := by
  unfold initiateMemoryPtr statusText
  split
  · rw [FileStore.content_put_eq]
  · split
    · rename_i h
      rw [h]
    · rfl

theorem wp_init (fs : Files) (w : W) :
    Exec.wp init (fun _ p => Loaded fs w p) (fun _ _ => ¬Loads fs) (Process.start fs w) := by
  have hprojects : Path.file .projects ≠ .file .updateStatus := by decide
  have hjobs : Path.file .jobs ≠ .file .updateStatus := by decide
  have henv : Path.file .env ≠ .file .updateStatus := by decide
  have hlimits : Path.file .limits ≠ .file .updateStatus := by decide
  simp only [init, readStore, Process.start, Exec.wp_bind, wp_onFiles, Exec.wp_modify, Exec.wp_get,
    Exec.wp_pure, FileStore.content_openCreate, content_initiateMemoryPtr, if_neg hprojects]
  refine (Exec.wp_ofExcept _).mpr ⟨fun services hs => ?_, fun e he => ?_⟩
  swap
  · rintro ⟨⟨t, ht⟩, -⟩
    cases he.symm.trans ht
  simp only [FileStore.content_openCreate, content_initiateMemoryPtr, if_neg hjobs]
  refine (Exec.wp_ofExcept _).mpr ⟨fun jobs hj => ?_, fun e he => ?_⟩
  swap
  · rintro ⟨-, ⟨t, ht⟩, -⟩
    cases he.symm.trans ht
  simp only [FileStore.content_openCreate, content_initiateMemoryPtr, if_neg henv]
  refine (Exec.wp_ofExcept _).mpr ⟨fun envs he => ?_, fun e he => ?_⟩
  swap
  · rintro ⟨-, -, ⟨t, ht⟩, -⟩
    cases he.symm.trans ht
  simp only [FileStore.content_openCreate, content_initiateMemoryPtr, if_neg hlimits]
  refine (Exec.wp_ofExcept _).mpr ⟨fun limits hl => ?_, fun e he => ?_⟩
  swap
  · rintro ⟨-, -, -, ⟨t, ht⟩⟩
    cases he.symm.trans ht
  simp only [createBackup, createBackupForJobs, wp_backupUnlessEmpty, ne_eq, not_true_eq_false,
    if_false, Exec.wp_bind, wp_onFiles, Exec.wp_pure]
  refine ⟨hs, hj, he, hl, rfl, rfl, rfl, ?_, fun q hq => ?_⟩
  · simp only
    rw [content_backupFiles_of_ne (by decide), content_backupFiles_of_ne (by decide)]
    simp [content_initiateMemoryPtr]
  · simp only [List.mem_cons, List.not_mem_nil, or_false, not_or] at hq
    simp only
    rw [content_backupFiles_of_ne hq.2.2, content_backupFiles_of_ne hq.2.1]
    simp [content_initiateMemoryPtr, hq.1]

/-- What `save_services` leaves in the projects file. -/
def savedProjects (fs : Files) (services : List Service) : Bytes :=
  if services.any (·.cloned) = false ∧ 0 < services.length then fs.content (.file .projects)
  else servicesText services

theorem savedProjects_of_cloned {services : List Service} (h : ∀ s ∈ services, s.cloned = true)
    (fs : Files) : savedProjects fs services = servicesText services := by
  refine if_neg ?_
  rintro ⟨hany, hpos⟩
  obtain ⟨s, hs⟩ := List.exists_mem_of_length_pos hpos
  exact List.any_eq_false.mp hany s hs (h s hs)

/-- The files that a save of services and jobs may write. -/
def statePaths : List Path :=
  [.file .projects, .fileCopy .projects, .file .jobs, .fileCopy .jobs, .file .jobsSync]

theorem wp_saveState (p : Process W) :
    Exec.wp saveState
      (fun _ p' => ∃ fs, p' = { p with files := fs } ∧
        fs.content (.file .projects) = savedProjects p.files p.services.items ∧
        fs.content (.file .jobs) = jobsText p.jobs.items ∧
        (p.jobs.items ≠ [] → LockFree p.files) ∧ SameBut statePaths p.files fs)
      (fun e _ => e = .blocked ∧ p.jobs.items ≠ [] ∧ ¬LockFree p.files) p := by
  simp only [saveState, Exec.wp_bind, Exec.wp_get, wp_onFiles]
  refine Exec.wp_mono (wp_saveServices p.services _ p.files) ?_ fun _ _ h => h
  rintro rc fs ⟨rfl, hprojects, hsame⟩
  have hlock : LockFree fs ↔ LockFree p.files := LockFree.congr (hsame _ (by decide))
  simp only [ne_eq, not_true_eq_false, if_false, Exec.wp_bind, wp_onFiles]
  refine Exec.wp_mono (wp_saveJobs p.jobs fs) ?_ ?_
  · rintro rc fs' ⟨rfl, hjobs, hfree, -, hsame'⟩
    simp only [not_true_eq_false, if_false, Exec.wp_pure]
    refine ⟨fs', rfl, ?_, hjobs, fun hne => hlock.mp (hfree hne), fun q hq => ?_⟩
    · rw [hsame' _ (by decide), hprojects]
      rfl
    · simp only [statePaths, List.mem_cons, List.not_mem_nil, or_false, not_or] at hq
      rw [hsame' q (by simp [hq]), hsame q (by simp [hq])]
  · rintro e fs' ⟨he, hne, hno⟩
    exact ⟨he, hne, mt hlock.mpr hno⟩

/-- `saveLimits` is called on two limits or more, which it aborts on. -/
def Process.Overfull (p : Process W) : Prop :=
  p.reformatLimits = true ∧ 2 ≤ p.limits.items.length

instance (p : Process W) : Decidable p.Overfull := inferInstanceAs (Decidable (_ ∧ _))

/-- What is in the limits file when the destructor ends. -/
def savedLimits (p : Process W) (fs : Files) : Bytes :=
  if p.reformatLimits = true ∧ ¬p.Overfull then limitsFormat.textAll p.limits.items
  else fs.content (.file .limits)

theorem savedLimits_of_unmarked {p : Process W} (h : p.reformatLimits = false) (fs : Files) :
    savedLimits p fs = fs.content (.file .limits) :=
  if_neg fun hsaved => Bool.false_ne_true (h.symm.trans hsaved.1)

theorem savedLimits_of_overfull {p : Process W} (h : p.Overfull) (fs : Files) :
    savedLimits p fs = fs.content (.file .limits) := if_neg fun hsaved => hsaved.2 h

/-- **What the destructor leaves** in the data files, also where it aborts on the limits. -/
structure Closed (p : Process W) (fs : Files) : Prop where
  projects : fs.content (.file .projects) =
    if p.reformatState then savedProjects p.files p.services.items
    else p.files.content (.file .projects)
  jobs : fs.content (.file .jobs) =
    if p.reformatState then jobsText p.jobs.items else p.files.content (.file .jobs)
  env : fs.content (.file .env) = envsText p.envs.items
  limits : fs.content (.file .limits) = savedLimits p p.files
  /-- It did not have to wait. -/
  unlocked : p.reformatState = true → p.jobs.items ≠ [] → LockFree p.files
  files : SameBut (statePaths ++ [.file .env, .fileCopy .env, .file .limits, .fileCopy .limits])
    p.files fs

theorem wp_saveRest (p : Process W) :
    Exec.wp saveRest
      (fun _ p' => ¬p.Overfull ∧ p'.files.content (.file .env) = envsText p.envs.items ∧
        p'.files.content (.file .limits) = savedLimits p p.files ∧
        SameBut [.file .env, .fileCopy .env, .file .limits, .fileCopy .limits] p.files p'.files)
      (fun e p' => e = .aborted ∧ p.Overfull ∧
        p'.files.content (.file .env) = envsText p.envs.items ∧
        p'.files.content (.file .limits) = savedLimits p p.files ∧
        SameBut [.file .env, .fileCopy .env, .file .limits, .fileCopy .limits] p.files p'.files)
      p := by
  simp only [saveRest, Exec.wp_bind, Exec.wp_get, wp_onFiles]
  refine Exec.wp_mono (wp_saveEnvs p.envs (fun _ _ => False) p.files) ?_ fun _ _ h => h.elim
  rintro rc fs ⟨rfl, henv, hsame⟩
  have hlimits : fs.content (.file .limits) = p.files.content (.file .limits) :=
    hsame _ (by decide)
  have hsame' : SameBut [.file .env, .fileCopy .env, .file .limits, .fileCopy .limits]
      p.files fs := fun q hq => hsame q (by simp at hq ⊢; tauto)
  by_cases hflag : p.reformatLimits = true
  · simp only [if_pos hflag, ne_eq, not_true_eq_false, if_false, Exec.wp_bind, wp_onFiles]
    by_cases hmany : 2 ≤ p.limits.items.length
    · have hover : p.Overfull := ⟨hflag, hmany⟩
      refine (wp_saveLimits_many hmany).mpr ⟨rfl, hover, henv, ?_, hsame'⟩
      rw [savedLimits_of_overfull hover]
      exact hlimits
    · have hover : ¬p.Overfull := fun h => hmany h.2
      refine Exec.wp_mono (wp_saveLimits_le_one (by omega) (fun _ _ => False) fs) ?_
        fun _ _ h => h.elim
      rintro rc fs₂ ⟨rfl, hsaved, hsame₂⟩
      simp only [not_true_eq_false, if_false, Exec.wp_pure]
      refine ⟨hover, ?_, ?_, fun q hq => ?_⟩
      · rw [hsame₂ _ (by decide), henv]
      · rw [hsaved, savedLimits, if_pos ⟨hflag, hover⟩]
      · rw [hsame₂ q (by simp at hq ⊢; tauto), hsame' q hq]
  · simp only [if_neg hflag, ne_eq, not_true_eq_false, if_false, Exec.wp_pure]
    refine ⟨fun h => hflag h.1, henv, ?_, hsame'⟩
    rw [savedLimits_of_unmarked (Bool.eq_false_of_not_eq_true hflag)]
    exact hlimits

/-- **`closeProcess`** writes every table it is to write. It waits for a lock that is
not free if there are jobs to save, and aborts at the limits if there are two or more. -/
theorem wp_closeProcess (p : Process W) :
    Exec.wp closeProcess (fun _ p' => ¬p.Overfull ∧ Closed p p'.files)
      (fun e p' =>
        (e = .blocked ∧ p.reformatState = true ∧ p.jobs.items ≠ [] ∧ ¬LockFree p.files) ∨
        (e = .aborted ∧ p.Overfull ∧ Closed p p'.files)) p := by
  have hrest : ∀ {q : Path}, q ∉ statePaths ++ [.file .env, .fileCopy .env, .file .limits,
      .fileCopy .limits] → q ∉ statePaths ∧ q ∉ [Path.file .env, .fileCopy .env, .file .limits,
      .fileCopy .limits] := fun h => by simpa only [List.mem_append, not_or] using h
  simp only [closeProcess, Exec.wp_bind, Exec.wp_get, Exec.wp_ite]
  refine ⟨fun hstate => ?_, fun hstate => ?_⟩
  · refine Exec.wp_mono (wp_saveState p) ?_ fun _ _ h => .inl ⟨h.1, hstate, h.2⟩
    rintro _ _ ⟨fs, rfl, hprojects, hjobs, hfree, hsame⟩
    -- whether the rest returns or aborts, it leaves what the state save has written
    have hclosed : ∀ {fs' : Files}, fs'.content (.file .env) = envsText p.envs.items →
        fs'.content (.file .limits) = savedLimits { p with files := fs } fs →
        SameBut [.file .env, .fileCopy .env, .file .limits, .fileCopy .limits] fs fs' →
        Closed p fs' := by
      intro fs' henv hlimits hsame'
      refine ⟨?_, ?_, henv, ?_, fun _ => hfree, fun q hq => ?_⟩
      · rw [hsame' _ (by decide), if_pos hstate, hprojects]
      · rw [hsame' _ (by decide), if_pos hstate, hjobs]
      · rw [hlimits, savedLimits, hsame _ (by decide)]
        rfl
      · rw [hsame' q (hrest hq).2, hsame q (hrest hq).1]
    exact Exec.wp_mono (wp_saveRest { p with files := fs })
      (fun _ _ h => ⟨h.1, hclosed h.2.1 h.2.2.1 h.2.2.2⟩)
      fun _ _ h => .inr ⟨h.1, h.2.1, hclosed h.2.2.1 h.2.2.2.1 h.2.2.2.2⟩
  · have hclosed : ∀ {fs' : Files}, fs'.content (.file .env) = envsText p.envs.items →
        fs'.content (.file .limits) = savedLimits p p.files →
        SameBut [.file .env, .fileCopy .env, .file .limits, .fileCopy .limits] p.files fs' →
        Closed p fs' := by
      intro fs' henv hlimits hsame'
      refine ⟨?_, ?_, henv, hlimits, fun h => absurd h hstate, fun q hq => hsame' q (hrest hq).2⟩
      · rw [hsame' _ (by decide), if_neg hstate]
      · rw [hsame' _ (by decide), if_neg hstate]
    exact Exec.wp_mono (wp_saveRest p)
      (fun _ _ h => ⟨h.1, hclosed h.2.1 h.2.2.1 h.2.2.2⟩)
      fun _ _ h => .inr ⟨h.1, h.2.1, hclosed h.2.2.1 h.2.2.2.1 h.2.2.2.2⟩

end MiniRunner
