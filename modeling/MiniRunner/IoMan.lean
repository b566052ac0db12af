import MiniRunner.Base

/-!
# Backups and the jobs lock

`io_man/` and `sync/`. `doBackup` copies one file over another and leaves the
destination alone when the source is empty; the create and apply functions of the
stores are that copy behind a test of an in-memory count. The jobs lock is a file
that reads `locked` or `free`: `isJobFree` tests it and `syncJob` writes it, in
separate calls.
-/

namespace MiniRunner

open Clib

/-! ## Copying -/

/-- `copyBackup`: replace the destination; an empty buffer is refused. -/
def copyBackup (data : Bytes) (dest : Path) : Exec Files Int := do
  modify (·.openCreate dest)
  if data = [] then throw .aborted
  else
    modify (·.rewrite dest data)
    pure 0

def doBackup (src dest : Path) : Exec Files Int := do
  modify (·.openCreate src)
  let fs ← get
  if fs.content src = [] then pure 0 else copyBackup (fs.content src) dest

/-- The files `doBackup` leaves. -/
def doBackupFiles (src dest : Path) (fs : Files) : Files :=
  if fs.content src = [] then fs.openCreate src
  else ((fs.openCreate src).openCreate dest).rewrite dest (fs.content src)

@[simp] theorem wp_doBackup {src dest : Path} {Q : Int → Files → Prop} {E : Halt → Files → Prop}
    {fs : Files} : Exec.wp (doBackup src dest) Q E fs ↔ Q 0 (doBackupFiles src dest fs) := by
  simp only [doBackup, copyBackup, doBackupFiles, Exec.wp_bind, Exec.wp_modify, Exec.wp_get,
    FileStore.content_openCreate]
  by_cases h : fs.content src = []
  · simp [h]
  · simp [h]

/-- **`doBackup` copies a non-empty file** and does nothing to any other content. -/
theorem content_doBackupFiles (src dest q : Path) (fs : Files) :
    (doBackupFiles src dest fs).content q =
      if q = dest ∧ fs.content src ≠ [] then fs.content src else fs.content q := by
  unfold doBackupFiles
  split
  · rename_i h
    simp [h]
  · rename_i h
    rw [FileStore.content_rewrite]
    by_cases hq : q = dest <;> simp [hq, h]

/-! ## Backups of the stores -/

def backupUnlessEmpty (count : Nat) (src dest : Path) : Exec Files Int :=
  if count = 0 then pure 0 else do
    let rc ← doBackup src dest
    if rc ≠ 0 then pure (-1) else pure 0

def createBackup (numberOfProjects : Nat) : Exec Files Int :=
  backupUnlessEmpty numberOfProjects (.file .projects) (.fileCopy .projects)

def applyBackup (numberOfProjects : Nat) : Exec Files Int :=
  backupUnlessEmpty numberOfProjects (.fileCopy .projects) (.file .projects)

def createBackupForJobs (numberOfJobs : Nat) : Exec Files Int :=
  backupUnlessEmpty numberOfJobs (.file .jobs) (.fileCopy .jobs)

def createEnvBackup (numberOfEnv : Nat) : Exec Files Int :=
  backupUnlessEmpty numberOfEnv (.file .env) (.fileCopy .env)

def createBackupLimit : Exec Files Int := do
  let rc ← doBackup (.file .limits) (.fileCopy .limits)
  if rc ≠ 0 then pure (-1) else pure 0

def backupFiles (count : Nat) (src dest : Path) (fs : Files) : Files :=
  if count = 0 then fs else doBackupFiles src dest fs

@[simp] theorem wp_backupUnlessEmpty {count : Nat} {src dest : Path} {Q : Int → Files → Prop}
    {E : Halt → Files → Prop} {fs : Files} :
    Exec.wp (backupUnlessEmpty count src dest) Q E fs ↔ Q 0 (backupFiles count src dest fs) := by
  unfold backupUnlessEmpty backupFiles
  split <;> simp

@[simp] theorem wp_createBackupLimit {Q : Int → Files → Prop} {E : Halt → Files → Prop}
    {fs : Files} :
    Exec.wp createBackupLimit Q E fs ↔
      Q 0 (doBackupFiles (.file .limits) (.fileCopy .limits) fs) := by
  simp [createBackupLimit]

theorem content_backupFiles_of_ne {count : Nat} {src dest q : Path} (h : q ≠ dest) (fs : Files) :
    (backupFiles count src dest fs).content q = fs.content q := by
  unfold backupFiles
  split
  · rfl
  · rw [content_doBackupFiles, if_neg fun hq => h hq.1]

/-! ## The jobs lock -/

/-- The text `locked`. -/
def lockedText : Bytes := [108, 111, 99, 107, 101, 100]

/-- The text `free`. -/
def freeText : Bytes := [102, 114, 101, 101]

/-- What `isJobFree` answers on the content of the lock file. -/
def readsFree (data : Bytes) : Bool := data.isEmpty || (CStr.ofBytes data).bytes == freeText

def isJobFree : Exec Files Bool := do
  modify (·.openCreate (.file .jobsSync))
  let fs ← get
  pure (readsFree (fs.content (.file .jobsSync)))

/-- `lockJob` and `unlockJob`. -/
def syncText (lock : Bool) : Bytes := if lock then lockedText else freeText

def syncJob (lock : Bool) : Exec Files Int := do
  modify (·.openCreate (.file .jobsSync))
  modify (·.rewrite (.file .jobsSync) (syncText lock))
  pure 0

@[simp] theorem wp_isJobFree {Q : Bool → Files → Prop} {E : Halt → Files → Prop} {fs : Files} :
    Exec.wp isJobFree Q E fs ↔
      Q (readsFree (fs.content (.file .jobsSync))) (fs.openCreate (.file .jobsSync)) := by
  simp [isJobFree]

/-- The files `syncJob` leaves. -/
def syncFiles (lock : Bool) (fs : Files) : Files :=
  (fs.openCreate (.file .jobsSync)).rewrite (.file .jobsSync) (syncText lock)

@[simp] theorem wp_syncJob {lock : Bool} {Q : Int → Files → Prop} {E : Halt → Files → Prop}
    {fs : Files} : Exec.wp (syncJob lock) Q E fs ↔ Q 0 (syncFiles lock fs) := by
  simp [syncJob, syncFiles]

theorem content_syncFiles (lock : Bool) (q : Path) (fs : Files) :
    (syncFiles lock fs).content q =
      if q = .file .jobsSync then syncText lock else fs.content q := by
  simp [syncFiles, FileStore.content_rewrite]

def LockFree (fs : Files) : Prop := readsFree (fs.content (.file .jobsSync)) = true

instance (fs : Files) : Decidable (LockFree fs) := inferInstanceAs (Decidable (_ = true))

theorem LockFree.congr {fs fs' : Files}
    (h : fs'.content (.file .jobsSync) = fs.content (.file .jobsSync)) :
    LockFree fs' ↔ LockFree fs := by
  rw [LockFree, LockFree, h]

theorem readsFree_freeText : readsFree freeText = true := by decide

theorem readsFree_lockedText : readsFree lockedText = false := by decide

/-! ## Restoring the jobs file -/

/-- The size of a page: the mapping of a file ends with zeros up to a page boundary. -/
def pageSize : Nat := 4096

/-- A mapped file read as a string. Without a NUL in it, only the zeros after its
end terminate it, and a file that fills its pages has none. -/
def mappedString (data : Bytes) : Except Halt CStr :=
  if 0 ∈ data ∨ data.length % pageSize ≠ 0 then .ok (.ofBytes data) else .error .undefined

/-- `writeToRealData`, which takes the lock without asking whether it is free. -/
def writeToRealData (data : Bytes) : Exec Files Int := do
  modify (·.openCreate (.file .jobs))
  let jobsBuff ← Exec.ofExcept (mappedString data)
  if jobsBuff.bytes = [] then throw .aborted
  else
    modify fun fs => fs.put (.file .jobs) (ftruncate jobsBuff.len (fs.content (.file .jobs)))
    if (← syncJob true) ≠ 0 then throw .aborted
    else
      modify fun fs => fs.put (.file .jobs) (copyInto (fs.content (.file .jobs)) jobsBuff.bytes)
      if (← syncJob false) ≠ 0 then throw .aborted else pure 0

def applyBackupForjobs (numberOfJobs : Nat) : Exec Files Int :=
  if numberOfJobs = 0 then pure 0 else do
    modify (·.openCreate (.fileCopy .jobs))
    let fs ← get
    if fs.content (.fileCopy .jobs) = [] then pure 0
    else if (← writeToRealData (fs.content (.fileCopy .jobs))) ≠ 0 then pure (-1)
    else pure 0

end MiniRunner
