import MiniRunner.Store.Services
import MiniRunner.Store.Jobs
import MiniRunner.Store.Envs
import MiniRunner.Store.Limits
import MiniRunner.IoMan

/-!
# Saving the tables

`save_services` and the functions of `fini/`. Each builds the text of its table,
makes a backup, resizes the data file and copies the text into it. `save_jobs`
waits for the jobs lock between the resize and the copy; within one process that
wait ends at once or never.

The `wp_` lemma of each function says what it returns, that the text of the table is
in its own file, and (`SameBut`) which other files it may have touched.
-/

namespace MiniRunner

open Clib

/-! ## Services -/

def saveServices (services : Table Service) : Exec Files Int := do
  let numberOfProjects := services.items.length
  if services.isNull ∧ numberOfProjects ≠ 0 then pure (-1)
  else if services.items.any (·.cloned) = false ∧ 0 < numberOfProjects then pure 0
  else do
    modify (·.openCreate (.file .projects))
    let fs ← get
    let size := (fs.content (.file .projects)).length
    if numberOfProjects = 0 ∧ size = 0 then pure 0
    else
      let dataToBeWritten := servicesText services.items
      if dataToBeWritten = [] ∧ 0 < numberOfProjects then throw .aborted
      else if (← createBackup numberOfProjects) ≠ 0 then throw .aborted
      else if dataToBeWritten = [] then do
        modify (·.put (.file .projects) [])
        pure 0
      else do
        modify (·.rewrite (.file .projects) dataToBeWritten)
        pure 0

/-! ## Jobs -/

/-- `writeData` of `save_jobs` and of `save_jobs_daemon`; the backup tests `numberOfJobs`. -/
def writeJobsData (numberOfJobs : Nat) (dataTobeWritten : Bytes) : Exec Files Int := do
  modify (·.openCreate (.file .jobs))
  if (← createBackupForJobs numberOfJobs) ≠ 0 then pure (-1)
  else do
    modify fun fs =>
      fs.put (.file .jobs) (ftruncate dataTobeWritten.length (fs.content (.file .jobs)))
    -- a mapping of length 0 is refused
    if dataTobeWritten = [] then pure (-1)
    else if (← isJobFree) = false then throw .blocked
    else if (← syncJob true) ≠ 0 then do
      modify fun fs =>
        fs.put (.file .jobs) (copyInto (fs.content (.file .jobs)) dataTobeWritten)
      pure (-1)
    else do
      modify fun fs =>
        fs.put (.file .jobs) (copyInto (fs.content (.file .jobs)) dataTobeWritten)
      if (← syncJob false) ≠ 0 then pure (-1) else pure 0

/-- Truncation to 0, which takes no lock. -/
def removeContentFromJobsFile (numberOfJobs : Nat) : Exec Files Int := do
  modify (·.openCreate (.file .jobs))
  if (← createBackupForJobs numberOfJobs) ≠ 0 then pure (-1)
  else do
    modify (·.put (.file .jobs) [])
    pure 0

/-- The body of both savers: `numberOfJobs` decides whether the file is emptied and
whether it is backed up, the table is what is written. Without a record the text
is still NULL when its length is taken. -/
def saveJobsWith (numberOfJobs : Nat) (jobs : Table Job) : Exec Files Int :=
  if numberOfJobs = 0 ∨ jobs.isNull then do
    if (← removeContentFromJobsFile numberOfJobs) ≠ 0 then pure (-1) else pure 0
  else if jobs.items = [] then throw .undefined
  else do
    if (← writeJobsData numberOfJobs (jobsText jobs.items)) ≠ 0 then pure (-1) else pure 0

def saveJobs (jobs : Table Job) : Exec Files Int := saveJobsWith jobs.items.length jobs

/-- The daemon's copy loops over its own table but tests the `numberOfJobs` it
inherited. -/
def saveJobsDaemon (numberOfJobs : Nat) (jobs : Table Job) : Exec Files Int :=
  saveJobsWith numberOfJobs jobs

/-! ## Environment variables -/

def saveEnvs (envs : Table Env) : Exec Files Int :=
  if envs.items.length = 0 then do
    modify (·.openCreate (.file .env))
    modify (·.put (.file .env) [])
    pure 0
  else if envs.isNull then pure (-1)
  else do
    modify (·.openCreate (.file .env))
    if (← createEnvBackup envs.items.length) ≠ 0 then pure (-1)
    else do
      modify (·.rewrite (.file .env) (envsText envs.items))
      pure 0

/-! ## Limits -/

/-- `eraseData`. -/
def eraseLimitsData : Exec Files Int := do
  modify (·.openCreate (.file .limits))
  if (← createBackupLimit) ≠ 0 then pure (-1)
  else do
    modify (·.put (.file .limits) [])
    pure 0

/-- `writeData`: the file is resized to `len` before `len` bytes of the text are read. -/
def writeLimitsData (content : Bytes) (len : Nat) : Exec Files Int := do
  modify (·.openCreate (.file .limits))
  if (← createBackupLimit) ≠ 0 then pure (-1)
  else do
    modify fun fs => fs.put (.file .limits) (ftruncate len (fs.content (.file .limits)))
    let data ← Exec.ofExcept (readBytes content len)
    modify fun fs => fs.put (.file .limits) (copyInto (fs.content (.file .limits)) data)
    pure 0

/-- The text is built before the file is opened. -/
def saveLimits (limits : Table Limit) : Exec Files Int :=
  if limits.isNull ∧ limits.items.length ≠ 0 then pure (-1)
  else if limits.items.length = 0 then do
    if (← eraseLimitsData) ≠ 0 then pure (-1) else pure 0
  else do
    match ← Exec.ofExcept (limitsData limits.items) with
    | none => pure (-1)
    | some (dataToWrite, dataSize) =>
      if (← writeLimitsData dataToWrite dataSize) ≠ 0 then pure (-1) else pure 0

/-! ## What a save leaves -/

/-- Two file states agree on every path that `ps` does not list. -/
def SameBut (ps : List Path) (fs fs' : Files) : Prop := ∀ q ∉ ps, fs'.content q = fs.content q

theorem SameBut.refl (ps : List Path) (fs : Files) : SameBut ps fs fs := fun _ _ => rfl

theorem SameBut.trans {ps : List Path} {fs fs' fs'' : Files} (h : SameBut ps fs fs')
    (h' : SameBut ps fs' fs'') : SameBut ps fs fs'' := fun q hq => (h' q hq).trans (h q hq)

theorem singleData_ne_nil (s : Service) : singleData s ≠ [] := by
  simp [singleData, serviceText, singleDataSize]

theorem servicesText_ne_nil {l : List Service} (h : l.any (·.cloned) = true) :
    servicesText l ≠ [] := by
  obtain ⟨s, hs, hc⟩ := List.any_eq_true.mp h
  intro hnil
  simp only [servicesText, List.flatMap_eq_nil_iff] at hnil
  exact singleData_ne_nil s (hnil s (List.mem_filter.mpr ⟨hs, hc⟩))

/-- **`save_services`** writes the cloned services, unless there are only uncloned
ones: then the file stays. -/
theorem wp_saveServices (t : Table Service) (E : Halt → Files → Prop) (fs : Files) :
    Exec.wp (saveServices t)
      (fun rc fs' => rc = 0 ∧
        fs'.content (.file .projects) =
          (if t.items.any (·.cloned) = false ∧ 0 < t.items.length then
            fs.content (.file .projects) else servicesText t.items) ∧
        SameBut [.file .projects, .fileCopy .projects] fs fs') E fs := by
  unfold saveServices
  rw [if_neg (Table.not_isNull_of_length t)]
  by_cases hunc : t.items.any (·.cloned) = false ∧ 0 < t.items.length
  · rw [if_pos hunc]
    simp [hunc, SameBut.refl]
  · have hany : 0 < t.items.length → t.items.any (·.cloned) = true := by
      intro hpos
      by_contra hno
      exact hunc ⟨by simpa using hno, hpos⟩
    rw [if_neg hunc, if_neg hunc]
    simp only [Exec.wp_bind, Exec.wp_modify, Exec.wp_get, FileStore.content_openCreate]
    by_cases hempty : t.items.length = 0 ∧ (fs.content (.file .projects)).length = 0
    · rw [if_pos hempty]
      have hitems : t.items = [] := List.length_eq_zero_iff.mp hempty.1
      have hfile : fs.content (.file .projects) = [] := List.length_eq_zero_iff.mp hempty.2
      simp [hitems, hfile, servicesText, SameBut]
    · have hwrites : ¬(servicesText t.items = [] ∧ 0 < t.items.length) := fun h =>
        servicesText_ne_nil (hany h.2) h.1
      rw [if_neg hempty, if_neg hwrites]
      simp only [Exec.wp_bind, createBackup, wp_backupUnlessEmpty, ne_eq, not_true_eq_false,
        if_false]
      split
      · rename_i htext
        simp only [Exec.wp_bind, Exec.wp_modify, Exec.wp_pure]
        refine ⟨trivial, by simp [htext], fun q hq => ?_⟩
        simp only [List.mem_cons, List.not_mem_nil, or_false, not_or] at hq
        rw [FileStore.content_put_of_ne hq.1, content_backupFiles_of_ne hq.2,
          FileStore.content_openCreate]
      · simp only [Exec.wp_bind, Exec.wp_modify, Exec.wp_pure]
        refine ⟨trivial, by simp [FileStore.content_rewrite], fun q hq => ?_⟩
        simp only [List.mem_cons, List.not_mem_nil, or_false, not_or] at hq
        rw [FileStore.content_rewrite, if_neg hq.1, content_backupFiles_of_ne hq.2,
          FileStore.content_openCreate]

/-! ### Jobs -/

theorem wp_saveJobsWith_zero {n : Nat} {t : Table Job} (hn : n = 0 ∨ t.isNull = true)
    (E : Halt → Files → Prop) (fs : Files) :
    Exec.wp (saveJobsWith n t)
      (fun rc fs' => rc = 0 ∧ fs'.content (.file .jobs) = [] ∧
        SameBut [.file .jobs, .fileCopy .jobs] fs fs') E fs := by
  unfold saveJobsWith removeContentFromJobsFile
  rw [if_pos hn]
  simp only [Exec.wp_bind, Exec.wp_modify, createBackupForJobs, wp_backupUnlessEmpty, ne_eq,
    not_true_eq_false, if_false, Exec.wp_pure, FileStore.content_put, true_and]
  intro q hq
  simp only [List.mem_cons, List.not_mem_nil, or_false, not_or] at hq
  rw [FileStore.content_put_of_ne hq.1, content_backupFiles_of_ne hq.2,
    FileStore.content_openCreate]

/-- **`writeData`** writes its text once the lock reads free, and leaves the lock free.
While it does not, the process waits on a resized file. -/
theorem wp_writeJobsData {data : Bytes} (hdata : data ≠ []) (n : Nat) (fs : Files) :
    Exec.wp (writeJobsData n data)
      (fun rc fs' => rc = 0 ∧ LockFree fs ∧ fs'.content (.file .jobs) = data ∧
        fs'.content (.file .jobsSync) = freeText ∧
        SameBut [.file .jobs, .fileCopy .jobs, .file .jobsSync] fs fs')
      (fun e _ => e = .blocked ∧ ¬LockFree fs) fs := by
  have hne : Path.file .jobsSync ≠ .file .jobs := by decide
  have hne' : Path.file .jobsSync ≠ .fileCopy .jobs := by decide
  unfold writeJobsData
  simp only [Exec.wp_bind, Exec.wp_modify, createBackupForJobs, wp_backupUnlessEmpty, ne_eq,
    not_true_eq_false, if_false, hdata, wp_isJobFree]
  -- the lock is read after the resize, which leaves it alone
  rw [FileStore.content_put_of_ne hne, content_backupFiles_of_ne hne',
    FileStore.content_openCreate]
  cases hfree : readsFree (fs.content (.file .jobsSync)) with
  | false => simp [LockFree, hfree]
  | true =>
    simp only [Bool.true_eq_false, if_false, Exec.wp_bind, wp_syncJob, Exec.wp_modify,
      not_true_eq_false, Exec.wp_pure, content_syncFiles, hne.symm, FileStore.content_put,
      FileStore.content_openCreate, true_and, if_true]
    refine ⟨hfree, copyInto_of_length_eq (by simp), rfl, fun q hq => ?_⟩
    simp only [List.mem_cons, List.not_mem_nil, or_false, not_or] at hq
    obtain ⟨h₁, h₂, h₃⟩ := hq
    rw [content_syncFiles, if_neg h₃, FileStore.content_put_of_ne h₁, content_syncFiles,
      if_neg h₃, FileStore.content_openCreate, FileStore.content_put_of_ne h₁,
      content_backupFiles_of_ne h₂, FileStore.content_openCreate]

theorem wp_saveJobsWith_table {n : Nat} {t : Table Job} (hn : n ≠ 0) (ht : t.items ≠ [])
    (fs : Files) :
    Exec.wp (saveJobsWith n t)
      (fun rc fs' => rc = 0 ∧ LockFree fs ∧ fs'.content (.file .jobs) = jobsText t.items ∧
        fs'.content (.file .jobsSync) = freeText ∧
        SameBut [.file .jobs, .fileCopy .jobs, .file .jobsSync] fs fs')
      (fun e _ => e = .blocked ∧ ¬LockFree fs) fs := by
  have hcount : ¬(n = 0 ∨ t.isNull = true) := by
    simp [hn, Table.isNull_eq_false ht]
  unfold saveJobsWith
  rw [if_neg hcount, if_neg ht, Exec.wp_bind]
  refine Exec.wp_mono (wp_writeJobsData (jobsText_ne_nil ht) n fs) ?_ fun _ _ h => h
  rintro rc fs' ⟨rfl, h⟩
  simpa only [ne_eq, not_true_eq_false, if_false, Exec.wp_pure, true_and] using h

theorem wp_saveJobsWith_undefined {n : Nat} {t : Table Job} (hn : n ≠ 0)
    (hnull : t.isNull = false) (ht : t.items = []) {Q : Int → Files → Prop}
    {E : Halt → Files → Prop} {fs : Files} :
    Exec.wp (saveJobsWith n t) Q E fs ↔ E .undefined fs := by
  unfold saveJobsWith
  rw [if_neg (by simp [hn, hnull]), if_pos ht]
  exact Exec.wp_throw _

/-- **`save_jobs`** writes the table and leaves the lock free, or waits for a lock
that is not. -/
theorem wp_saveJobs (t : Table Job) (fs : Files) :
    Exec.wp (saveJobs t)
      (fun rc fs' => rc = 0 ∧ fs'.content (.file .jobs) = jobsText t.items ∧
        (t.items ≠ [] → LockFree fs) ∧ (LockFree fs → LockFree fs') ∧
        SameBut [.file .jobs, .fileCopy .jobs, .file .jobsSync] fs fs')
      (fun e _ => e = .blocked ∧ t.items ≠ [] ∧ ¬LockFree fs) fs := by
  by_cases ht : t.items = []
  · refine Exec.wp_mono (wp_saveJobsWith_zero (.inl (by simp [ht])) _ fs) ?_ fun _ _ h => h
    rintro rc fs' ⟨hrc, hjobs, hsame⟩
    refine ⟨hrc, by rw [hjobs, ht]; rfl, absurd ht, fun hfree => ?_,
      fun q hq => hsame q fun h => hq ?_⟩
    · exact (LockFree.congr (hsame _ (by decide))).mpr hfree
    · simp only [List.mem_cons, List.not_mem_nil, or_false] at h ⊢
      tauto
  · refine Exec.wp_mono (wp_saveJobsWith_table (by simpa using ht) ht fs) ?_ ?_
    · rintro rc fs' ⟨hrc, hfree, hjobs, hlock, hsame⟩
      refine ⟨hrc, hjobs, fun _ => hfree, fun _ => ?_, hsame⟩
      rw [LockFree, hlock]
      exact readsFree_freeText
    · rintro e _ ⟨he, hno⟩
      exact ⟨he, ht, hno⟩

/-! ### Environment variables and limits -/

theorem wp_saveEnvs (t : Table Env) (E : Halt → Files → Prop) (fs : Files) :
    Exec.wp (saveEnvs t)
      (fun rc fs' => rc = 0 ∧ fs'.content (.file .env) = envsText t.items ∧
        SameBut [.file .env, .fileCopy .env] fs fs') E fs := by
  unfold saveEnvs
  by_cases ht : t.items = []
  · rw [if_pos (by simp [ht])]
    simp only [Exec.wp_bind, Exec.wp_modify, Exec.wp_pure, FileStore.content_put, true_and]
    refine ⟨by rw [ht]; rfl, fun q hq => ?_⟩
    simp only [List.mem_cons, List.not_mem_nil, or_false, not_or] at hq
    rw [FileStore.content_put_of_ne hq.1, FileStore.content_openCreate]
  · rw [if_neg (by simpa using ht), Table.isNull_eq_false ht]
    simp only [Bool.false_eq_true, if_false, Exec.wp_bind, Exec.wp_modify, createEnvBackup,
      wp_backupUnlessEmpty, ne_eq, not_true_eq_false, Exec.wp_pure, true_and,
      FileStore.content_rewrite, if_true]
    intro q hq
    simp only [List.mem_cons, List.not_mem_nil, or_false, not_or] at hq
    rw [FileStore.content_rewrite, if_neg hq.1, content_backupFiles_of_ne hq.2,
      FileStore.content_openCreate]

/-- One limit at most is written as its text. -/
theorem wp_saveLimits_le_one {t : Table Limit} (h : t.items.length ≤ 1) (E : Halt → Files → Prop)
    (fs : Files) :
    Exec.wp (saveLimits t)
      (fun rc fs' => rc = 0 ∧ fs'.content (.file .limits) = limitsFormat.textAll t.items ∧
        SameBut [.file .limits, .fileCopy .limits] fs fs') E fs := by
  unfold saveLimits eraseLimitsData writeLimitsData
  match hitems : t.items with
  | [] =>
    simp only [List.length_nil, ne_eq, not_true_eq_false, and_false, if_false, if_true,
      Exec.wp_bind, Exec.wp_modify, wp_createBackupLimit, Exec.wp_pure, FileStore.content_put,
      true_and]
    refine ⟨rfl, fun q hq => ?_⟩
    simp only [List.mem_cons, List.not_mem_nil, or_false, not_or] at hq
    rw [FileStore.content_put_of_ne hq.1, content_doBackupFiles, if_neg (fun hd => hq.2 hd.1),
      FileStore.content_openCreate]
  | [l] =>
    rw [if_neg (by simp [Table.isNull_eq_false (t := t) (by simp [hitems])])]
    simp only [List.length_singleton, Nat.one_ne_zero, if_false, Exec.wp_bind, Exec.wp_modify,
      wp_createBackupLimit, ne_eq, not_true_eq_false, Exec.wp_ofExcept, limitsData_singleton,
      readBytes_length, Except.ok.injEq, reduceCtorEq, forall_eq', false_implies,
      implies_true, and_true, Exec.wp_pure, true_and, FileStore.content_put]
    refine ⟨?_, fun q hq => ?_⟩
    · rw [copyInto_of_length_eq (by simp)]
      simp [RecordFormat.textAll, limitsFormat]
    · simp only [List.mem_cons, List.not_mem_nil, or_false, not_or] at hq
      rw [FileStore.content_put_of_ne hq.1, FileStore.content_put_of_ne hq.1,
        content_doBackupFiles, if_neg (fun hd => hq.2 hd.1), FileStore.content_openCreate]
  | _ :: _ :: _ => simp [hitems] at h

/-- **Two limits or more** abort the process before the limits file is opened. -/
theorem wp_saveLimits_many {t : Table Limit} (h : 2 ≤ t.items.length) {Q : Int → Files → Prop}
    {E : Halt → Files → Prop} {fs : Files} :
    Exec.wp (saveLimits t) Q E fs ↔ E .aborted fs := by
  have hnull : t.isNull = false := Table.isNull_eq_false fun hnil => by simp [hnil] at h
  unfold saveLimits
  rw [if_neg (by simp [hnull]), if_neg (by omega)]
  simp only [Exec.wp_bind, Exec.wp_ofExcept, limitsData_many h, reduceCtorEq, false_implies,
    implies_true, Except.error.injEq, forall_eq', true_and]

end MiniRunner
