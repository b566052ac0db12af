import MiniRunner.Main

/-!
# Committing services and jobs together

`closeProcess` when a step of `save_jobs` fails: by then the projects file is written, and
both backups are put back. The backups and their restoration look at the counts of the new
tables, so what the rollback does depends on which table became empty, on which of the files
was empty before and on where `save_jobs` stopped.

A file that was loaded is indexed by an `int`, so sizes are below 2 GiB here.
-/

namespace MiniRunner

open Clib Process

variable {W : Type}

/-! ## Steps that fail -/

/-- The steps of `syncJob` that return an error. -/
inductive SyncStep where
  | openFile | statFile | resizeFile | mapFile
  deriving DecidableEq, Repr

/-- The steps of `save_jobs` that return an error. -/
inductive JobsStep where
  | openJobs | statJobs | resizeJobs | mapJobs
  | lock (step : SyncStep)
  | unlock (step : SyncStep)
  deriving DecidableEq, Repr

namespace JobsStep

def inLock : JobsStep → Option SyncStep
  | lock step => some step
  | _ => none

/-- The failing step is one of giving the lock back. -/
def inUnlock : JobsStep → Option SyncStep
  | unlock step => some step
  | _ => none

/-- What the jobs file holds when the step has failed. -/
def leaves (old new : Bytes) : JobsStep → Bytes
  | openJobs | statJobs | resizeJobs => old
  | mapJobs => ftruncate new.length old
  | lock _ | unlock _ => new

/-- The backup of the jobs comes before the step. -/
def AfterBackup : JobsStep → Prop
  | openJobs | statJobs => False
  | _ => True

instance decidableAfterBackup : DecidablePred AfterBackup
  | openJobs => inferInstanceAs (Decidable False)
  | statJobs => inferInstanceAs (Decidable False)
  | resizeJobs => inferInstanceAs (Decidable True)
  | mapJobs => inferInstanceAs (Decidable True)
  | lock _ => inferInstanceAs (Decidable True)
  | unlock _ => inferInstanceAs (Decidable True)

/-- The wait for the lock comes before the step. -/
def AfterWait : JobsStep → Prop
  | lock _ | unlock _ => True
  | _ => False

/-- A jobs file that held `old` holds it still, with `new` to be written. -/
def LeavesOld (old new : Bytes) : JobsStep → Prop
  | openJobs | statJobs | resizeJobs => True
  | mapJobs => old.length = new.length
  | lock _ | unlock _ => new = old

/-- The jobs file holds `new` already. -/
def LeavesNew (old new : Bytes) : JobsStep → Prop
  | openJobs | statJobs | resizeJobs => old = new
  | mapJobs => ftruncate new.length old = new
  | lock _ | unlock _ => True

def Emptying : JobsStep → Prop
  | openJobs | statJobs | resizeJobs => True
  | _ => False

end JobsStep

/-! ## Saving with a step that fails -/

/-- `syncJob`. -/
def syncJobAt (fails : Option SyncStep) (lock : Bool) : Exec Files Int :=
  if fails = some .openFile then pure (-1)
  else do
    modify (·.openCreate (.file .jobsSync))
    if fails = some .statFile ∨ fails = some .resizeFile then pure (-1)
    else if fails = some .mapFile then do
      modify fun fs =>
        fs.put (.file .jobsSync) (ftruncate (syncText lock).length (fs.content (.file .jobsSync)))
      pure (-1)
    else do
      modify (·.rewrite (.file .jobsSync) (syncText lock))
      pure 0

/-- `writeData` of `save_jobs`. -/
def writeJobsDataAt (fails : Option JobsStep) (numberOfJobs : Nat) (dataTobeWritten : Bytes) :
    Exec Files Int :=
  if fails = some .openJobs then pure (-1)
  else do
    modify (·.openCreate (.file .jobs))
    if fails = some .statJobs then pure (-1)
    else if (← createBackupForJobs numberOfJobs) ≠ 0 then pure (-1)
    else if fails = some .resizeJobs then pure (-1)
    else do
      modify fun fs =>
        fs.put (.file .jobs) (ftruncate dataTobeWritten.length (fs.content (.file .jobs)))
      if dataTobeWritten = [] ∨ fails = some .mapJobs then pure (-1)
      else if (← isJobFree) = false then throw .blocked
      else if (← syncJobAt (fails.bind JobsStep.inLock) true) ≠ 0 then do
        -- the data is copied without the lock
        modify fun fs =>
          fs.put (.file .jobs) (copyInto (fs.content (.file .jobs)) dataTobeWritten)
        pure (-1)
      else do
        modify fun fs =>
          fs.put (.file .jobs) (copyInto (fs.content (.file .jobs)) dataTobeWritten)
        if (← syncJobAt (fails.bind JobsStep.inUnlock) false) ≠ 0 then pure (-1) else pure 0

/-- `removeContentFromJobsFile`. -/
def removeContentFromJobsFileAt (fails : Option JobsStep) (numberOfJobs : Nat) : Exec Files Int :=
  if fails = some .openJobs then pure (-1)
  else do
    modify (·.openCreate (.file .jobs))
    if fails = some .statJobs then pure (-1)
    else if (← createBackupForJobs numberOfJobs) ≠ 0 then pure (-1)
    else if fails = some .resizeJobs then pure (-1)
    else do
      modify (·.put (.file .jobs) [])
      pure 0

/-- `save_jobs`. -/
def saveJobsAt (fails : Option JobsStep) (jobs : Table Job) : Exec Files Int :=
  if jobs.items.length = 0 ∨ jobs.isNull then do
    if (← removeContentFromJobsFileAt fails jobs.items.length) ≠ 0 then pure (-1) else pure 0
  else do
    if (← writeJobsDataAt fails jobs.items.length (jobsText jobs.items)) ≠ 0 then pure (-1)
    else pure 0

/-- The first half of `closeProcess`. -/
def saveStateAt (fails : Option JobsStep) : Exec (Process W) Unit := do
  let p ← get
  let rc ← onFiles (saveServices p.services)
  let rc ← if rc ≠ 0 then pure rc else onFiles (saveJobsAt fails p.jobs)
  if rc ≠ 0 then
    if (← onFiles (applyBackup p.services.items.length)) ≠ 0 then throw .aborted
    else if (← onFiles (applyBackupForjobs p.jobs.items.length)) ≠ 0 then throw .aborted
    else throw .aborted
  else pure ()

def closeProcessAt (fails : Option JobsStep) : Exec (Process W) Unit := do
  let p ← get
  if p.reformatState then saveStateAt fails
  saveRest

/-! ## Without a failing step -/

theorem syncJobAt_none (lock : Bool) : syncJobAt none lock = syncJob lock := by
  simp [syncJobAt, syncJob]

theorem saveJobsAt_none (jobs : Table Job) : saveJobsAt none jobs = saveJobs jobs := by
  have hwrite : writeJobsDataAt none = writeJobsData := by
    funext n data
    simp [writeJobsDataAt, writeJobsData, syncJobAt_none]
  have hempty : removeContentFromJobsFileAt none = removeContentFromJobsFile := by
    funext n
    simp [removeContentFromJobsFileAt, removeContentFromJobsFile]
  rw [saveJobsAt, saveJobs, saveJobsWith, hwrite, hempty]
  by_cases hitems : jobs.items = []
  · rw [if_pos (.inl (List.length_eq_zero_iff.mpr hitems)),
      if_pos (.inl (List.length_eq_zero_iff.mpr hitems))]
  · rw [if_neg hitems]

theorem closeProcessAt_none : (closeProcessAt none : Exec (Process W) Unit) = closeProcess := by
  simp only [closeProcessAt, closeProcess, saveStateAt, saveState, saveJobsAt_none]

/-! ## What a failing step leaves -/

def jobsBackupAt (f : JobsStep) (fs : Files) : Bytes :=
  if f.AfterBackup ∧ fs.content (.file .jobs) ≠ [] then fs.content (.file .jobs)
  else fs.content (.fileCopy .jobs)

theorem jobsBackupAt_of_afterBackup (f : JobsStep) (hf : f.AfterBackup) (fs : Files) :
    jobsBackupAt f fs = if fs.content (.file .jobs) ≠ [] then fs.content (.file .jobs)
      else fs.content (.fileCopy .jobs) := by
  simp only [jobsBackupAt, hf, true_and]

theorem content_backupFiles_dest {count : Nat} {src dest : Path} (hcount : count ≠ 0)
    (fs : Files) : (backupFiles count src dest fs).content dest =
      if fs.content src ≠ [] then fs.content src else fs.content dest := by
  rw [backupFiles, if_neg hcount, content_doBackupFiles]
  simp

theorem wp_syncJobAt (step : SyncStep) (lock : Bool) (E : Halt → Files → Prop) (fs : Files) :
    Exec.wp (syncJobAt (some step) lock) (fun rc fs' => rc = -1 ∧ SameBut [.file .jobsSync] fs fs')
      E fs := by
  have hopened : SameBut [.file .jobsSync] fs (fs.openCreate (.file .jobsSync)) := fun q _ =>
    FileStore.content_openCreate _ _ _
  cases step with
  | openFile => simp [syncJobAt, SameBut]
  | statFile => simpa [syncJobAt] using hopened
  | resizeFile => simpa [syncJobAt] using hopened
  | mapFile =>
    simp only [syncJobAt, Option.some.injEq, reduceCtorEq, or_self, if_false, if_true,
      Exec.wp_bind, Exec.wp_modify, Exec.wp_pure, true_and]
    refine hopened.trans fun q hq => ?_
    exact FileStore.content_put_of_ne (by simpa using hq) _

/-- The files once `writeData` has made the backup. -/
def backedUpJobs (n : Nat) (fs : Files) : Files :=
  backupFiles n (.file .jobs) (.fileCopy .jobs) (fs.openCreate (.file .jobs))

theorem content_backedUpJobs {n : Nat} (hn : n ≠ 0) (q : Path) (fs : Files) :
    (backedUpJobs n fs).content q =
      if q = .fileCopy .jobs ∧ fs.content (.file .jobs) ≠ [] then fs.content (.file .jobs)
      else fs.content q := by
  rw [backedUpJobs, backupFiles, if_neg hn, content_doBackupFiles]
  simp only [FileStore.content_openCreate]

/-- The files that `writeData` waits on. -/
def resizedJobs (n : Nat) (data : Bytes) (fs : Files) : Files :=
  (backedUpJobs n fs).put (.file .jobs) (ftruncate data.length (fs.content (.file .jobs)))

theorem content_resizedJobs {n : Nat} (hn : n ≠ 0) (data : Bytes) (fs : Files) :
    (resizedJobs n data fs).content (.file .jobs) =
        ftruncate data.length (fs.content (.file .jobs)) ∧
      (resizedJobs n data fs).content (.fileCopy .jobs) =
        (if fs.content (.file .jobs) ≠ [] then fs.content (.file .jobs)
        else fs.content (.fileCopy .jobs)) ∧
      SameBut [.file .jobs, .fileCopy .jobs] fs (resizedJobs n data fs) := by
  refine ⟨FileStore.content_put _ _ _, ?_, fun q hq => ?_⟩
  · rw [resizedJobs, FileStore.content_put_of_ne (by decide), content_backedUpJobs hn]
    simp
  · simp only [List.mem_cons, List.not_mem_nil, or_false, not_or] at hq
    rw [resizedJobs, FileStore.content_put_of_ne hq.1, content_backedUpJobs hn,
      if_neg fun h => hq.2 h.1]

/-- The files after the copy, whatever was done to the lock before and after it. -/
theorem content_copiedJobs {n : Nat} (hn : n ≠ 0) (data : Bytes) {fs fs₁ fs₂ : Files}
    (h₁ : SameBut [.file .jobsSync] (resizedJobs n data fs) fs₁)
    (h₂ : SameBut [.file .jobsSync]
      (fs₁.put (.file .jobs) (copyInto (fs₁.content (.file .jobs)) data)) fs₂) :
    fs₂.content (.file .jobs) = data ∧
      fs₂.content (.fileCopy .jobs) = (if fs.content (.file .jobs) ≠ [] then
        fs.content (.file .jobs) else fs.content (.fileCopy .jobs)) ∧
      SameBut [.file .jobs, .fileCopy .jobs, .file .jobsSync] fs fs₂ := by
  obtain ⟨hjobs, hcopy, hsame⟩ := content_resizedJobs hn data fs
  refine ⟨?_, ?_, fun q hq => ?_⟩
  · rw [h₂ _ (by decide), FileStore.content_put, h₁ _ (by decide), hjobs,
      copyInto_of_length_eq (by simp)]
  · rw [h₂ _ (by decide), FileStore.content_put_of_ne (by decide), h₁ _ (by decide), hcopy]
  · simp only [List.mem_cons, List.not_mem_nil, or_false, not_or] at hq
    rw [h₂ q (by simpa using hq.2.2), FileStore.content_put_of_ne hq.1,
      h₁ q (by simpa using hq.2.2), hsame q (by simp [hq])]

theorem wp_unlessLocked {n : Nat} (hn : n ≠ 0) {data : Bytes} {fs fs₁ : Files} {α : Type}
    {x : Exec Files α} {Q : α → Files → Prop} {E : Halt → Files → Prop}
    (hblocked : ¬LockFree fs → E .blocked fs₁) (hx : LockFree fs → Exec.wp x Q E fs₁) :
    Exec.wp (if readsFree ((resizedJobs n data fs).content (.file .jobsSync)) = false then
      throw .blocked else x) Q E fs₁ := by
  have hlock : LockFree (resizedJobs n data fs) ↔ LockFree fs :=
    LockFree.congr ((content_resizedJobs hn data fs).2.2 _ (by decide))
  by_cases hfree : readsFree ((resizedJobs n data fs).content (.file .jobsSync)) = false
  · rw [if_pos hfree]
    exact (Exec.wp_throw _).mpr (hblocked (mt hlock.mpr (by simp [LockFree, hfree])))
  · rw [if_neg hfree]
    exact hx (hlock.mp (by simpa [LockFree] using hfree))

/-- `writeData` with a step that fails. -/
theorem wp_writeJobsDataAt (f : JobsStep) {n : Nat} (hn : n ≠ 0) {data : Bytes}
    (hdata : data ≠ []) (fs : Files) :
    Exec.wp (writeJobsDataAt (some f) n data)
      (fun rc fs' => rc = -1 ∧ (f.AfterWait → LockFree fs) ∧
        fs'.content (.file .jobs) = f.leaves (fs.content (.file .jobs)) data ∧
        fs'.content (.fileCopy .jobs) = jobsBackupAt f fs ∧
        SameBut [.file .jobs, .fileCopy .jobs, .file .jobsSync] fs fs')
      (fun e _ => e = .blocked ∧ f.AfterWait ∧ ¬LockFree fs) fs := by
  obtain ⟨hjobs, hcopy, hsame⟩ := content_resizedJobs hn data fs
  have hbacked : (backupFiles n (.file .jobs) (.fileCopy .jobs)
      (fs.openCreate (.file .jobs))).content (.file .jobs) = fs.content (.file .jobs) := by
    rw [content_backupFiles_of_ne (by decide), FileStore.content_openCreate]
  have hopened : SameBut [.file .jobsSync] (resizedJobs n data fs)
      ((resizedJobs n data fs).openCreate (.file .jobsSync)) := fun _ _ =>
    FileStore.content_openCreate _ _ _
  have hwiden {fs' : Files} (h : SameBut [.file .jobs, .fileCopy .jobs] fs fs') :
      SameBut [.file .jobs, .fileCopy .jobs, .file .jobsSync] fs fs' := fun q hq =>
    h q (by simp at hq ⊢; tauto)
  cases f with
  | openJobs => simp [writeJobsDataAt, JobsStep.leaves, JobsStep.AfterWait, jobsBackupAt,
      JobsStep.AfterBackup, SameBut]
  | statJobs => simp [writeJobsDataAt, JobsStep.leaves, JobsStep.AfterWait, jobsBackupAt,
      JobsStep.AfterBackup, SameBut]
  | resizeJobs =>
    simp only [writeJobsDataAt, Option.some.injEq, reduceCtorEq, if_false, if_true, Exec.wp_bind,
      Exec.wp_modify, createBackupForJobs, wp_backupUnlessEmpty, ne_eq, not_true_eq_false,
      Exec.wp_pure, true_and]
    change (_ → _) ∧ (backedUpJobs n fs).content _ = _ ∧ (backedUpJobs n fs).content _ = _ ∧
      SameBut _ fs (backedUpJobs n fs)
    refine ⟨False.elim, ?_, ?_, hwiden fun q hq => ?_⟩
    · rw [content_backedUpJobs hn, if_neg (by simp)]
      rfl
    · simp [content_backedUpJobs hn, jobsBackupAt, JobsStep.AfterBackup]
    · simp only [List.mem_cons, List.not_mem_nil, or_false, not_or] at hq
      rw [content_backedUpJobs hn, if_neg fun h => hq.2 h.1]
  | mapJobs =>
    simp only [writeJobsDataAt, Option.some.injEq, reduceCtorEq, if_false, Exec.wp_bind,
      Exec.wp_modify, createBackupForJobs, wp_backupUnlessEmpty, ne_eq, not_true_eq_false,
      or_true, if_true, Exec.wp_pure, true_and, hbacked]
    change (_ → _) ∧ (resizedJobs n data fs).content _ = _ ∧
      (resizedJobs n data fs).content _ = _ ∧ SameBut _ fs (resizedJobs n data fs)
    exact ⟨False.elim, hjobs, hcopy.trans (jobsBackupAt_of_afterBackup .mapJobs trivial fs).symm,
      hwiden hsame⟩
  | lock step =>
    simp only [writeJobsDataAt, Option.some.injEq, reduceCtorEq, if_false, Exec.wp_bind,
      Exec.wp_modify, createBackupForJobs, wp_backupUnlessEmpty, ne_eq, not_true_eq_false,
      or_false, hdata, wp_isJobFree, hbacked, Option.bind_some, JobsStep.inLock]
    change Exec.wp (if readsFree ((resizedJobs n data fs).content _) = false then _ else _) _ _
      ((resizedJobs n data fs).openCreate _)
    refine wp_unlessLocked hn (fun hlocked => ⟨rfl, trivial, hlocked⟩) fun hfree => ?_
    rw [Exec.wp_bind]
    refine Exec.wp_mono (wp_syncJobAt step true (fun _ _ => False) _) ?_ fun _ _ h => h.elim
    rintro _ fs₁ ⟨rfl, h₁⟩
    obtain ⟨hdata', hcopy', hsame'⟩ := content_copiedJobs hn data (hopened.trans h₁) (.refl _ _)
    rw [if_pos (by decide), Exec.wp_bind, Exec.wp_modify, Exec.wp_pure]
    exact ⟨rfl, fun _ => hfree, hdata',
      hcopy'.trans (jobsBackupAt_of_afterBackup (.lock step) trivial fs).symm, hsame'⟩
  | unlock step =>
    simp only [writeJobsDataAt, Option.some.injEq, reduceCtorEq, if_false, Exec.wp_bind,
      Exec.wp_modify, createBackupForJobs, wp_backupUnlessEmpty, ne_eq, not_true_eq_false,
      or_false, hdata, wp_isJobFree, hbacked, Option.bind_some, JobsStep.inLock,
      JobsStep.inUnlock, syncJobAt_none]
    change Exec.wp (if readsFree ((resizedJobs n data fs).content _) = false then _ else _) _ _
      ((resizedJobs n data fs).openCreate _)
    refine wp_unlessLocked hn (fun hlocked => ⟨rfl, trivial, hlocked⟩) fun hfree => ?_
    rw [Exec.wp_bind, wp_syncJob, if_neg (by decide), Exec.wp_bind, Exec.wp_modify, Exec.wp_bind]
    refine Exec.wp_mono (wp_syncJobAt step false (fun _ _ => False) _) ?_ fun _ _ h => h.elim
    rintro _ fs₂ ⟨rfl, h₂⟩
    have h₁ : SameBut [.file .jobsSync] (resizedJobs n data fs) (syncFiles true
        ((resizedJobs n data fs).openCreate (.file .jobsSync))) := hopened.trans fun q hq => by
      rw [content_syncFiles, if_neg (by simpa using hq)]
    obtain ⟨hdata', hcopy', hsame'⟩ := content_copiedJobs hn data h₁ h₂
    rw [if_pos (by decide), Exec.wp_pure]
    exact ⟨rfl, fun _ => hfree, hdata',
      hcopy'.trans (jobsBackupAt_of_afterBackup (.unlock step) trivial fs).symm, hsame'⟩

/-- **`save_jobs` with a step that fails** returns -1, or waits for the lock before it. -/
theorem wp_saveJobsAt {f : JobsStep} {t : Table Job} (hf : t.items = [] → f.Emptying)
    (fs : Files) :
    Exec.wp (saveJobsAt (some f) t)
      (fun rc fs' => rc = -1 ∧ (f.AfterWait → LockFree fs) ∧
        fs'.content (.file .jobs) = f.leaves (fs.content (.file .jobs)) (jobsText t.items) ∧
        (t.items ≠ [] → fs'.content (.fileCopy .jobs) = jobsBackupAt f fs) ∧
        SameBut [.file .jobs, .fileCopy .jobs, .file .jobsSync] fs fs')
      (fun e _ => e = .blocked ∧ f.AfterWait ∧ ¬LockFree fs) fs := by
  by_cases hitems : t.items = []
  · have hempty : t.items.length = 0 ∨ t.isNull = true := .inl (List.length_eq_zero_iff.mpr hitems)
    have hsame : SameBut [.file .jobs, .fileCopy .jobs, .file .jobsSync] fs
        (fs.openCreate (.file .jobs)) := fun q _ => FileStore.content_openCreate _ _ _
    have hn : t.items.length = 0 := List.length_eq_zero_iff.mpr hitems
    have hf := hf hitems
    rw [saveJobsAt, if_pos hempty, removeContentFromJobsFileAt, hn]
    cases f with
    | openJobs =>
      simp [JobsStep.leaves, JobsStep.AfterWait, hitems, SameBut]
    | statJobs =>
      simp [JobsStep.leaves, JobsStep.AfterWait, hitems, SameBut]
    | resizeJobs =>
      simp [JobsStep.leaves, JobsStep.AfterWait, hitems, SameBut, createBackupForJobs, backupFiles]
    | mapJobs | lock | unlock => exact hf.elim
  · have hfull : ¬(t.items.length = 0 ∨ t.isNull = true) := by
      simp [hitems, Table.isNull_eq_false hitems]
    rw [saveJobsAt, if_neg hfull, Exec.wp_bind]
    refine Exec.wp_mono (wp_writeJobsDataAt f (mt List.length_eq_zero_iff.mp hitems)
      (jobsText_ne_nil hitems) fs) ?_ fun _ _ h => h
    rintro _ fs' ⟨rfl, hfree, hjobs, hcopy, hsame⟩
    rw [if_pos (by decide), Exec.wp_pure]
    exact ⟨rfl, hfree, hjobs, fun _ => hcopy, hsame⟩

/-- The backup of the projects once `save_services` is through. -/
def projectsBackupAt (services : List Service) (fs : Files) : Bytes :=
  if services.any (·.cloned) = true ∧ fs.content (.file .projects) ≠ [] then
    fs.content (.file .projects)
  else fs.content (.fileCopy .projects)

theorem wp_saveServices_copy (t : Table Service) (E : Halt → Files → Prop) (fs : Files) :
    Exec.wp (saveServices t)
      (fun _ fs' => fs'.content (.fileCopy .projects) = projectsBackupAt t.items fs) E fs := by
  have hcopy : Path.fileCopy .projects ≠ .file .projects := by decide
  unfold saveServices
  rw [if_neg (Table.not_isNull_of_length t)]
  by_cases hany : t.items.any (·.cloned) = true
  · have hn : t.items.length ≠ 0 := fun h => by
      simp [List.length_eq_zero_iff.mp h] at hany
    have htext : servicesText t.items ≠ [] := servicesText_ne_nil hany
    rw [if_neg (by simp [hany])]
    simp only [Exec.wp_bind, Exec.wp_modify, Exec.wp_get, hn, htext, false_and, if_false,
      createBackup, wp_backupUnlessEmpty, ne_eq, not_true_eq_false, Exec.wp_pure]
    rw [FileStore.content_rewrite, if_neg hcopy, backupFiles, if_neg hn, content_doBackupFiles,
      projectsBackupAt]
    simp [hany]
  · have hback : projectsBackupAt t.items fs = fs.content (.fileCopy .projects) :=
      if_neg fun h => hany h.1
    rw [hback]
    by_cases hn : t.items.length = 0
    · have htext : servicesText t.items = [] := by rw [List.length_eq_zero_iff.mp hn]; rfl
      rw [if_neg (by omega)]
      simp only [Exec.wp_bind, Exec.wp_modify, Exec.wp_get, hn, htext, true_and, Exec.wp_ite,
        createBackup, wp_backupUnlessEmpty, ne_eq, not_true_eq_false, Exec.wp_pure]
      simp [backupFiles, FileStore.content_put_of_ne hcopy]
    · rw [if_pos ⟨by simpa using hany, by omega⟩, Exec.wp_pure]

/-! ## Putting the backups back -/

/-- The backup of the jobs can be read as a string, or is not read. -/
def Mapped (m : Nat) (backup : Bytes) : Prop :=
  m = 0 ∨ backup = [] ∨ 0 ∈ backup ∨ backup.length % pageSize ≠ 0

theorem content_applyBackup (n : Nat) (fs : Files) :
    (backupFiles n (.fileCopy .projects) (.file .projects) fs).content (.file .projects) =
      if n ≠ 0 ∧ fs.content (.fileCopy .projects) ≠ [] then fs.content (.fileCopy .projects)
      else fs.content (.file .projects) := by
  by_cases hn : n = 0
  · rw [backupFiles, if_pos hn, if_neg fun h => h.1 hn]
  · rw [content_backupFiles_dest hn]
    simp [hn]

/-- The jobs file after its backup was put back over `left`: an empty table and a backup
without text leave it alone. -/
def restoredJobs (m : Nat) (backup left : Bytes) : Bytes :=
  if m = 0 ∨ (CStr.ofBytes backup).bytes = [] then left else (CStr.ofBytes backup).bytes

theorem mapped_congr {m : Nat} {b b' : Bytes} (h : m ≠ 0 → b = b') :
    Mapped m b ↔ Mapped m b' := by
  by_cases hm : m = 0
  · exact iff_of_true (.inl hm) (.inl hm)
  · rw [h hm]

theorem restoredJobs_congr {m : Nat} {b b' : Bytes} (h : m ≠ 0 → b = b') (left : Bytes) :
    restoredJobs m b left = restoredJobs m b' left := by
  by_cases hm : m = 0
  · rw [restoredJobs, restoredJobs, if_pos (.inl hm), if_pos (.inl hm)]
  · rw [h hm]

theorem wp_applyBackupForjobs (m : Nat) (fs : Files) :
    Exec.wp (applyBackupForjobs m)
      (fun _ fs' => Mapped m (fs.content (.fileCopy .jobs)) ∧
        fs'.content (.file .jobs) =
          restoredJobs m (fs.content (.fileCopy .jobs)) (fs.content (.file .jobs)) ∧
        fs'.content (.file .projects) = fs.content (.file .projects))
      (fun e fs' => e = .undefined ∧ ¬Mapped m (fs.content (.fileCopy .jobs)) ∨
        e = .aborted ∧ Mapped m (fs.content (.fileCopy .jobs)) ∧
        fs'.content (.file .jobs) =
          restoredJobs m (fs.content (.fileCopy .jobs)) (fs.content (.file .jobs)) ∧
        fs'.content (.file .projects) = fs.content (.file .projects)) fs := by
  by_cases hm : m = 0
  · subst hm
    exact (Exec.wp_pure _).mpr ⟨.inl rfl, (if_pos (.inl rfl)).symm, rfl⟩
  simp only [applyBackupForjobs, if_neg hm, Exec.wp_bind, Exec.wp_modify, Exec.wp_get,
    FileStore.content_openCreate]
  by_cases hempty : fs.content (.fileCopy .jobs) = []
  · rw [if_pos hempty, Exec.wp_pure, FileStore.content_openCreate, FileStore.content_openCreate,
      hempty]
    exact ⟨.inr (.inl rfl), (if_pos (.inr rfl)).symm, rfl⟩
  rw [if_neg hempty]
  simp only [writeToRealData, Exec.wp_bind, Exec.wp_modify]
  by_cases hmapped : 0 ∈ fs.content (.fileCopy .jobs) ∨
      (fs.content (.fileCopy .jobs)).length % pageSize ≠ 0
  · have hmap : Mapped m (fs.content (.fileCopy .jobs)) := .inr (.inr hmapped)
    rw [mappedString, if_pos hmapped, Exec.wp_ofExcept_ok]
    by_cases htext : (CStr.ofBytes (fs.content (.fileCopy .jobs))).bytes = []
    · rw [if_pos htext]
      refine (Exec.wp_throw _).mpr (.inr ⟨rfl, hmap, ?_, ?_⟩)
      · rw [restoredJobs, if_pos (.inr htext)]
        simp
      · simp
    · rw [if_neg htext]
      simp only [Exec.wp_bind, Exec.wp_modify, wp_syncJob, ne_eq, not_true_eq_false, if_false,
        Exec.wp_pure]
      refine ⟨hmap, ?_, ?_⟩
      · rw [restoredJobs, if_neg (not_or.mpr ⟨hm, htext⟩), content_syncFiles, if_neg (by decide),
          FileStore.content_put, content_syncFiles, if_neg (by decide), FileStore.content_put,
          copyInto_of_length_eq (by simp [CStr.len])]
      · rw [content_syncFiles, if_neg (by decide), FileStore.content_put_of_ne (by decide),
          content_syncFiles, if_neg (by decide), FileStore.content_put_of_ne (by decide),
          FileStore.content_openCreate, FileStore.content_openCreate]
  · rw [mappedString, if_neg hmapped, Exec.wp_ofExcept_error]
    refine .inl ⟨rfl, ?_⟩
    rintro (h | h | h)
    · exact hm h
    · exact hempty h
    · exact hmapped h

/-! ## Both or neither -/

section commit

variable (p : Process W) (f : JobsStep)

/-- `save_jobs` is called and comes to the step. -/
def Reaches : Prop := p.reformatState = true ∧ (p.jobs.items = [] → f.Emptying)

/-- Both files hold their new contents, or both their old ones. -/
def Together (fs : Files) : Prop :=
  fs.content (.file .projects) = savedProjects p.files p.services.items ∧
      fs.content (.file .jobs) = jobsText p.jobs.items ∨
    fs.content (.file .projects) = p.files.content (.file .projects) ∧
      fs.content (.file .jobs) = p.files.content (.file .jobs)

/-- **Services and jobs are committed together**, however the process ends; one that waits for
the lock for ever does not end. -/
def CommitsTogether : Prop :=
  Exec.wp (closeProcessAt (some f)) (fun _ p' => Together p p'.files)
    (fun e p' => e = .blocked ∨ e ≠ .undefined ∧ Together p p'.files) p

def projectsAfter : Bytes :=
  if p.services.items ≠ [] ∧ projectsBackupAt p.services.items p.files ≠ [] then
    projectsBackupAt p.services.items p.files
  else savedProjects p.files p.services.items

def jobsAfter : Bytes :=
  restoredJobs p.jobs.items.length (jobsBackupAt f p.files)
    (f.leaves (p.files.content (.file .jobs)) (jobsText p.jobs.items))

variable {p f}

/-- **How the process ends** when `save_jobs` fails. -/
theorem wp_closeProcessAt (h : Reaches p f) :
    Exec.wp (closeProcessAt (some f)) (fun _ _ => False)
      (fun e p' => e = .blocked ∧ f.AfterWait ∧ ¬LockFree p.files ∨
        (f.AfterWait → LockFree p.files) ∧
          (e = .undefined ∧ ¬Mapped p.jobs.items.length (jobsBackupAt f p.files) ∨
          e = .aborted ∧ Mapped p.jobs.items.length (jobsBackupAt f p.files) ∧
            p'.files.content (.file .projects) = projectsAfter p ∧
            p'.files.content (.file .jobs) = jobsAfter p f)) p := by
  simp only [closeProcessAt, saveStateAt, Exec.wp_bind, Exec.wp_get, if_pos h.1, wp_onFiles]
  refine Exec.wp_mono (Exec.wp_and (wp_saveServices p.services (fun _ _ => False) p.files)
    (wp_saveServices_copy p.services (fun _ _ => False) p.files)) ?_ fun _ _ h => h.1.elim
  rintro _ fs₁ ⟨⟨rfl, hprojects, hsame⟩, hcopy⟩
  have hjobs₁ : fs₁.content (.file .jobs) = p.files.content (.file .jobs) := hsame _ (by decide)
  have hcopy₁ : fs₁.content (.fileCopy .jobs) = p.files.content (.fileCopy .jobs) :=
    hsame _ (by decide)
  have hlock : LockFree fs₁ ↔ LockFree p.files := LockFree.congr (hsame _ (by decide))
  have hbackup : jobsBackupAt f fs₁ = jobsBackupAt f p.files := by
    rw [jobsBackupAt, jobsBackupAt, hjobs₁, hcopy₁]
  simp only [ne_eq, not_true_eq_false, if_false, Exec.wp_bind, wp_onFiles]
  refine Exec.wp_mono (wp_saveJobsAt h.2 fs₁) ?_
    fun _ _ h => .inl ⟨h.1, h.2.1, mt hlock.mpr h.2.2⟩
  rintro _ fs₂ ⟨rfl, hfree, hjobs₂, hcopy₂, hsame₂⟩
  rw [if_pos (by decide)]
  simp only [applyBackup, Exec.wp_bind, wp_onFiles, wp_backupUnlessEmpty, not_true_eq_false,
    if_false]
  have hprojects₃ : (backupFiles p.services.items.length (.fileCopy .projects) (.file .projects)
      fs₂).content (.file .projects) = projectsAfter p := by
    rw [content_applyBackup, hsame₂ _ (by decide), hsame₂ _ (by decide), hprojects, hcopy,
      projectsAfter]
    simp only [ne_eq, List.length_eq_zero_iff]
    rfl
  have hjobs₃ : (backupFiles p.services.items.length (.fileCopy .projects) (.file .projects)
      fs₂).content (.file .jobs) = f.leaves (p.files.content (.file .jobs))
        (jobsText p.jobs.items) := by
    rw [content_backupFiles_of_ne (by decide), hjobs₂, hjobs₁]
  have hcopy₃ : p.jobs.items.length ≠ 0 → (backupFiles p.services.items.length
      (.fileCopy .projects) (.file .projects) fs₂).content (.fileCopy .jobs) =
        jobsBackupAt f p.files := fun hne => by
    rw [content_backupFiles_of_ne (by decide),
      hcopy₂ (mt List.length_eq_zero_iff.mpr hne), hbackup]
  have hfree' : f.AfterWait → LockFree p.files := fun hf => hlock.mp (hfree hf)
  refine Exec.wp_mono (wp_applyBackupForjobs p.jobs.items.length _) ?_ ?_
  · rintro rc fs₃ ⟨hmapped, hjobs, hproj⟩
    rw [mapped_congr hcopy₃] at hmapped
    rw [restoredJobs_congr hcopy₃, hjobs₃] at hjobs
    rw [ite_self, Exec.wp_throw]
    exact .inr ⟨hfree', .inr ⟨rfl, hmapped, hproj.trans hprojects₃, hjobs⟩⟩
  · rintro e fs₃ (⟨rfl, hmapped⟩ | ⟨rfl, hmapped, hjobs, hproj⟩)
    · rw [mapped_congr hcopy₃] at hmapped
      exact .inr ⟨hfree', .inl ⟨rfl, hmapped⟩⟩
    · rw [mapped_congr hcopy₃] at hmapped
      rw [restoredJobs_congr hcopy₃, hjobs₃] at hjobs
      exact .inr ⟨hfree', .inr ⟨rfl, hmapped, hproj.trans hprojects₃, hjobs⟩⟩

variable (p f)

/-- The rollback leaves the projects file as it was before. A table that became empty is not
put back, and neither is a file that was empty; without a cloned service nothing was written,
but a backup that there is is put back all the same. -/
def ProjectsBack : Prop :=
  if p.services.items = [] then p.files.content (.file .projects) = []
  else if p.services.items.any (·.cloned) = true then p.files.content (.file .projects) ≠ []
  else p.files.content (.fileCopy .projects) = [] ∨
    p.files.content (.fileCopy .projects) = p.files.content (.file .projects)

/-- The rollback leaves the projects file as it was written. -/
def ProjectsStay : Prop :=
  if p.services.items = [] then True
  else if p.services.items.any (·.cloned) = true then
    if p.files.content (.file .projects) ≠ [] then
      p.files.content (.file .projects) = servicesText p.services.items
    else p.files.content (.fileCopy .projects) = [] ∨
      p.files.content (.fileCopy .projects) = servicesText p.services.items
  else p.files.content (.fileCopy .projects) = [] ∨
    p.files.content (.fileCopy .projects) = p.files.content (.file .projects)

/-- The rollback leaves the jobs file alone: the table is empty, or the backup has no text. -/
def JobsAlone : Prop :=
  p.jobs.items.length = 0 ∨ (CStr.ofBytes (jobsBackupAt f p.files)).bytes = []

instance decidableJobsAlone : Decidable (JobsAlone p f) := inferInstanceAs (Decidable (_ ∨ _))

/-- The jobs file is as before, from the failing step on or from its backup. -/
def JobsBack : Prop :=
  if JobsAlone p f then f.LeavesOld (p.files.content (.file .jobs)) (jobsText p.jobs.items)
  else (CStr.ofBytes (jobsBackupAt f p.files)).bytes = p.files.content (.file .jobs)

def JobsStay : Prop :=
  if JobsAlone p f then f.LeavesNew (p.files.content (.file .jobs)) (jobsText p.jobs.items)
  else (CStr.ofBytes (jobsBackupAt f p.files)).bytes = jobsText p.jobs.items

/-- When services and jobs are committed together: the process waits for ever, or the backup of
the jobs can be read and the rollback leaves both files as before or both as written. -/
def Recovers : Prop :=
  f.AfterWait ∧ ¬LockFree p.files ∨
    Mapped p.jobs.items.length (jobsBackupAt f p.files) ∧
      (ProjectsBack p ∧ JobsBack p f ∨ ProjectsStay p ∧ JobsStay p f)

variable {p f}

/-- What is at the end of the three kinds of table. -/
theorem projectsAfter_cases :
    p.services.items = [] ∧ projectsAfter p = [] ∧
        savedProjects p.files p.services.items = [] ∨
      p.services.items ≠ [] ∧ p.services.items.any (·.cloned) = true ∧
        projectsAfter p = (if p.files.content (.file .projects) ≠ [] then
          p.files.content (.file .projects) else if p.files.content (.fileCopy .projects) ≠ [] then
          p.files.content (.fileCopy .projects) else servicesText p.services.items) ∧
        savedProjects p.files p.services.items = servicesText p.services.items ∨
      p.services.items ≠ [] ∧ p.services.items.any (·.cloned) = false ∧
        projectsAfter p = (if p.files.content (.fileCopy .projects) ≠ [] then
          p.files.content (.fileCopy .projects) else p.files.content (.file .projects)) ∧
        savedProjects p.files p.services.items = p.files.content (.file .projects) := by
  by_cases hitems : p.services.items = []
  · refine .inl ⟨hitems, ?_, ?_⟩ <;> simp [projectsAfter, savedProjects, hitems, servicesText]
  · have hpos : 0 < p.services.items.length := List.length_pos_iff.mpr hitems
    cases hany : p.services.items.any (·.cloned) with
    | true =>
      have hsaved : savedProjects p.files p.services.items = servicesText p.services.items :=
        if_neg (by simp [hany])
      refine .inr (.inl ⟨hitems, rfl, ?_, hsaved⟩)
      rw [projectsAfter, hsaved, projectsBackupAt, hany]
      by_cases hold : p.files.content (.file .projects) = []
      · simp [hold, hitems]
      · simp [hold, hitems]
    | false =>
      have hsaved : savedProjects p.files p.services.items =
          p.files.content (.file .projects) := if_pos ⟨hany, hpos⟩
      refine .inr (.inr ⟨hitems, rfl, ?_, hsaved⟩)
      rw [projectsAfter, hsaved, projectsBackupAt, hany]
      simp [hitems]

theorem projectsAfter_eq_old_iff :
    projectsAfter p = p.files.content (.file .projects) ↔ ProjectsBack p := by
  rw [ProjectsBack]
  obtain ⟨hitems, hafter, -⟩ | ⟨hitems, hany, hafter, -⟩ | ⟨hitems, hany, hafter, -⟩ :=
    projectsAfter_cases (p := p)
  · rw [if_pos hitems, hafter, eq_comm]
  · rw [if_neg hitems, if_pos hany, hafter]
    have htext := servicesText_ne_nil hany
    by_cases hold : p.files.content (.file .projects) = []
    · by_cases hcopy : p.files.content (.fileCopy .projects) = [] <;> simp [hold, hcopy, htext]
    · simp [hold]
  · rw [if_neg hitems, if_neg (by simp [hany]), hafter]
    by_cases hcopy : p.files.content (.fileCopy .projects) = [] <;> simp [hcopy]

theorem projectsAfter_eq_new_iff :
    projectsAfter p = savedProjects p.files p.services.items ↔ ProjectsStay p := by
  rw [ProjectsStay]
  obtain ⟨hitems, hafter, hsaved⟩ | ⟨hitems, hany, hafter, hsaved⟩ |
    ⟨hitems, hany, hafter, hsaved⟩ := projectsAfter_cases (p := p)
  · rw [if_pos hitems, hafter, hsaved]
    exact iff_of_true rfl trivial
  · rw [if_neg hitems, if_pos hany, hafter, hsaved]
    by_cases hold : p.files.content (.file .projects) = []
    · by_cases hcopy : p.files.content (.fileCopy .projects) = [] <;> simp [hold, hcopy]
    · simp [hold]
  · rw [if_neg hitems, if_neg (by simp [hany]), hafter, hsaved]
    by_cases hcopy : p.files.content (.fileCopy .projects) = [] <;> simp [hcopy]

theorem leaves_eq_old_iff {old new : Bytes} : f.leaves old new = old ↔ f.LeavesOld old new := by
  cases f with
  | mapJobs =>
    refine ⟨fun h => ?_, fun h => ?_⟩
    · exact (congrArg List.length h).symm.trans (length_ftruncate _ _)
    · change ftruncate new.length old = old
      rw [← h]
      simp [ftruncate]
  | openJobs | statJobs | resizeJobs => exact iff_of_true rfl trivial
  | lock | unlock => exact Iff.rfl

theorem leaves_eq_new_iff {old new : Bytes} : f.leaves old new = new ↔ f.LeavesNew old new := by
  cases f with
  | openJobs | statJobs | resizeJobs | mapJobs => exact Iff.rfl
  | lock | unlock => exact iff_of_true rfl trivial

theorem jobsAfter_eq : jobsAfter p f = if JobsAlone p f then
    f.leaves (p.files.content (.file .jobs)) (jobsText p.jobs.items)
    else (CStr.ofBytes (jobsBackupAt f p.files)).bytes := rfl

theorem jobsAfter_eq_old_iff : jobsAfter p f = p.files.content (.file .jobs) ↔ JobsBack p f := by
  rw [jobsAfter_eq, JobsBack]
  by_cases h : JobsAlone p f
  · rw [if_pos h, if_pos h, leaves_eq_old_iff]
  · rw [if_neg h, if_neg h]

theorem jobsAfter_eq_new_iff : jobsAfter p f = jobsText p.jobs.items ↔ JobsStay p f := by
  rw [jobsAfter_eq, JobsStay]
  by_cases h : JobsAlone p f
  · rw [if_pos h, if_pos h, leaves_eq_new_iff]
  · rw [if_neg h, if_neg h]

theorem together_iff {fs : Files} (hproj : fs.content (.file .projects) = projectsAfter p)
    (hjobs : fs.content (.file .jobs) = jobsAfter p f) : Together p fs ↔
      ProjectsBack p ∧ JobsBack p f ∨ ProjectsStay p ∧ JobsStay p f := by
  rw [Together, hproj, hjobs, projectsAfter_eq_old_iff, projectsAfter_eq_new_iff,
    jobsAfter_eq_old_iff, jobsAfter_eq_new_iff, or_comm]

theorem recovers_of_commitsTogether (h : Reaches p f) (hcommits : CommitsTogether p f) :
    Recovers p f := by
  by_contra hno
  refine Exec.not_wp_false (Exec.wp_mono (Exec.wp_and hcommits (wp_closeProcessAt h))
    (fun _ _ h => h.2) fun e p' hend => ?_)
  obtain ⟨hgood, ⟨-, hwait⟩ | ⟨-, ⟨rfl, -⟩ | ⟨rfl, hmapped, hproj, hjobs⟩⟩⟩ := hend
  · exact hno (.inl hwait)
  · obtain hblocked | ⟨hne, -⟩ := hgood
    · cases hblocked
    · exact hne rfl
  · obtain hblocked | ⟨-, htogether⟩ := hgood
    · cases hblocked
    · exact hno (.inr ⟨hmapped, (together_iff hproj hjobs).mp htogether⟩)

/-- **When both files are committed together.** -/
theorem commitsTogether_iff (h : Reaches p f) : CommitsTogether p f ↔ Recovers p f := by
  refine ⟨recovers_of_commitsTogether h, fun hrec => ?_⟩
  refine Exec.wp_mono (wp_closeProcessAt h) (fun _ _ h => h.elim) fun e p' hend => ?_
  obtain ⟨rfl, -⟩ | ⟨hfree, ⟨rfl, hunmapped⟩ | ⟨rfl, hmapped, hproj, hjobs⟩⟩ := hend
  · exact .inl rfl
  · obtain ⟨hwait, hlocked⟩ | ⟨hmapped, -⟩ := hrec
    · exact absurd (hfree hwait) hlocked
    · exact absurd hmapped hunmapped
  · obtain ⟨hwait, hlocked⟩ | ⟨-, hboth⟩ := hrec
    · exact absurd (hfree hwait) hlocked
    · exact .inr ⟨by decide, (together_iff hproj hjobs).mpr hboth⟩

end commit

/-- One service was stored and no job; the tables hold `services` and one job. -/
def committing (services : Table Service) : Process Unit where
  files := FileStore.put (fun _ => none) (.file .projects) [97, 94, 114, 35, 48, 10]
  world := ()
  services := services
  jobs := .ofList [newJob (.ofBytes [106]) (.ofBytes [47]) 60 0]
  envs := .blank 20 20
  limits := .blank 4 4
  reformatState := true
  reformatLimits := false

theorem commitsTogether_iff_renamed :
    CommitsTogether (committing (.ofList [⟨.ofBytes [114], .ofBytes [98], 0, true⟩])) .openJobs :=
  (commitsTogether_iff (f := .openJobs) ⟨rfl, fun _ => trivial⟩).mpr <| .inr
    ⟨.inr (.inl (by decide)), .inl ⟨List.cons_ne_nil 97 _, trivial⟩⟩

/-- The last service was removed: its file stays empty, and the new job is not in its own. -/
theorem not_commitsTogether : Reaches (committing (.blank 4 0)) .openJobs ∧
    ¬CommitsTogether (committing (.blank 4 0)) .openJobs := by
  have hreaches : Reaches (committing (.blank 4 0)) .openJobs := ⟨rfl, fun _ => trivial⟩
  refine ⟨hreaches, fun hcommits => ?_⟩
  obtain ⟨hwait, -⟩ | ⟨-, ⟨hback, -⟩ | ⟨-, hstay⟩⟩ :=
    recovers_of_commitsTogether hreaches hcommits
  · exact hwait
  · have hemptied : ([97, 94, 114, 35, 48, 10] : Bytes) = [] := hback
    cases hemptied
  · have hunwritten : [] = jobsText (committing (.blank 4 0)).jobs.items := hstay
    exact jobsText_ne_nil (List.cons_ne_nil _ _) hunwritten.symm

end MiniRunner
