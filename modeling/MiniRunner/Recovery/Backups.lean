import MiniRunner.IoMan

/-!
# Backup and restore

The create and apply functions of the eight stores that have a backup. The size of a copy
is an `int` here, as in `base.c` and `apply_backup.c`; below 2 GiB `Sized.doBackup` is
`doBackup` (`Sized.wp_doBackup_iff`). `Recoverable` is the condition under which the apply
function gives back what a file held when its create function returned.
-/

namespace MiniRunner

open Clib

/-! ## Sizes -/

/-- A file size or a string length as an `int`. -/
def intSize (n : Nat) : Int := (BitVec.ofNat 32 n).toInt

/-- The bytes that a copy takes when the size goes through an `int`. -/
def sized (data : Bytes) : Bytes := data.take (intSize data.length).toNat

theorem intSize_of_lt {n : Nat} (h : n < 2 ^ 31) : intSize n = n := by
  rw [intSize, BitVec.toInt_eq_toNat_of_lt (by simp; omega), BitVec.toNat_ofNat]
  omega

theorem intSize_lt (n : Nat) : intSize n < 2 ^ 31 := BitVec.toInt_lt

theorem intSize_le (n : Nat) : intSize n ≤ n := by
  rw [intSize, BitVec.toInt_eq_toNat_cond, BitVec.toNat_ofNat]
  split <;> omega

theorem length_sized (data : Bytes) : (sized data).length = (intSize data.length).toNat := by
  have := intSize_le data.length
  rw [sized, List.length_take]
  omega

theorem sized_eq_nil_iff (data : Bytes) : sized data = [] ↔ intSize data.length ≤ 0 := by
  rw [← List.length_eq_zero_iff, length_sized]
  omega

/-- **A copy is whole** below 2 GiB and only there. -/
theorem sized_eq_self_iff (data : Bytes) : sized data = data ↔ data.length < 2 ^ 31 := by
  constructor
  · intro h
    have hlt := intSize_lt data.length
    have hlen := length_sized data
    rw [h] at hlen
    omega
  · intro h
    rw [sized, intSize_of_lt h]
    exact List.take_length

/-! ## The functions of `io_man` -/

namespace Sized

def copyBackup (data : Bytes) (dest : Path) : Exec Files Int := do
  modify (·.openCreate dest)
  if intSize data.length ≤ 0 then throw .aborted
  else
    modify (·.rewrite dest (sized data))
    pure 0

def doBackup (src dest : Path) : Exec Files Int := do
  modify (·.openCreate src)
  let fs ← get
  if fs.content src = [] then pure 0
  else if (← copyBackup (fs.content src) dest) ≠ 0 then pure (-1)
  else pure 0

/-- A copy whose return code becomes 0 or -1. -/
def backup (src dest : Path) : Exec Files Int := do
  if (← doBackup src dest) ≠ 0 then pure (-1) else pure 0

def backupUnlessEmpty (count : Nat) (src dest : Path) : Exec Files Int :=
  if count = 0 then pure 0 else backup src dest

def createBackup (numberOfProjects : Nat) : Exec Files Int :=
  backupUnlessEmpty numberOfProjects (.file .projects) (.fileCopy .projects)

def applyBackup (numberOfProjects : Nat) : Exec Files Int :=
  backupUnlessEmpty numberOfProjects (.fileCopy .projects) (.file .projects)

def createEnvBackup (numberOfEnv : Nat) : Exec Files Int :=
  backupUnlessEmpty numberOfEnv (.file .env) (.fileCopy .env)

def applyEnvBackup (numberOfEnv : Nat) : Exec Files Int :=
  backupUnlessEmpty numberOfEnv (.fileCopy .env) (.file .env)

def createBackupLimit : Exec Files Int := backup (.file .limits) (.fileCopy .limits)

def applyBackupLimits : Exec Files Int := backup (.fileCopy .limits) (.file .limits)

def createBackupForJobs (numberOfJobs : Nat) : Exec Files Int :=
  backupUnlessEmpty numberOfJobs (.file .jobs) (.fileCopy .jobs)

/-- `createJobRsLimitBackup` copies the file onto itself. -/
def createJobRsLimitBackup : Exec Files Int := backup (.file .jobCpuLimit) (.file .jobCpuLimit)

def applyJobRsLimitBackup : Exec Files Int := backup (.fileCopy .jobCpuLimit) (.file .jobCpuLimit)

def createJobRsMmLimitBackup : Exec Files Int :=
  backup (.file .jobMemLimit) (.fileCopy .jobMemLimit)

def applyJobRsMmLimitBackup : Exec Files Int :=
  backup (.fileCopy .jobMemLimit) (.file .jobMemLimit)

def createBackupDaemonPid : Exec Files Int := backup (.file .jobDaemonPid) (.fileCopy .jobDaemonPid)

def applyJobDaemonPidBackup : Exec Files Int :=
  backup (.fileCopy .jobDaemonPid) (.file .jobDaemonPid)

def createBackupForUpdateStatus : Exec Files Int :=
  backup (.file .updateStatus) (.fileCopy .updateStatus)

def applyBackupUpdateStatus : Exec Files Int :=
  backup (.fileCopy .updateStatus) (.file .updateStatus)

/-- `writeToRealData`, which copies up to the first NUL of the backup. -/
def writeToRealData (data : Bytes) : Exec Files Int := do
  modify (·.openCreate (.file .jobs))
  let jobsBuff ← Exec.ofExcept (mappedString data)
  if intSize jobsBuff.len ≤ 0 then throw .aborted
  else
    modify fun fs =>
      fs.put (.file .jobs) (ftruncate (intSize jobsBuff.len).toNat (fs.content (.file .jobs)))
    if (← syncJob true) ≠ 0 then throw .aborted
    else
      modify fun fs =>
        fs.put (.file .jobs) (copyInto (fs.content (.file .jobs)) (sized jobsBuff.bytes))
      if (← syncJob false) ≠ 0 then throw .aborted else pure 0

def applyBackupForjobs (numberOfJobs : Nat) : Exec Files Int :=
  if numberOfJobs = 0 then pure 0 else do
    modify (·.openCreate (.fileCopy .jobs))
    let fs ← get
    if fs.content (.fileCopy .jobs) = [] then pure 0
    else if (← writeToRealData (fs.content (.fileCopy .jobs))) ≠ 0 then pure (-1)
    else pure 0

/-! ## What they do -/

section rules

variable {src dest : Path} {fs : Files} {Q : Int → Files → Prop} {E : Halt → Files → Prop}

theorem wp_doBackup :
    Exec.wp (doBackup src dest) Q E fs ↔
      if fs.content src = [] then Q 0 (fs.openCreate src)
      else if sized (fs.content src) = [] then E .aborted ((fs.openCreate src).openCreate dest)
      else Q 0 (((fs.openCreate src).openCreate dest).rewrite dest (sized (fs.content src))) := by
  simp only [doBackup, copyBackup, Exec.wp_bind, Exec.wp_modify, Exec.wp_get,
    FileStore.content_openCreate, sized_eq_nil_iff]
  by_cases hempty : fs.content src = []
  · simp [hempty]
  · by_cases hsize : intSize (fs.content src).length ≤ 0
    · simp [hempty, hsize]
    · simp [hempty, hsize]

theorem wp_doBackup_iff (h : (fs.content src).length < 2 ^ 31) :
    Exec.wp (doBackup src dest) Q E fs ↔ Exec.wp (MiniRunner.doBackup src dest) Q E fs := by
  rw [wp_doBackup, MiniRunner.wp_doBackup, doBackupFiles, (sized_eq_self_iff _).mpr h]
  split
  · rfl
  · rfl

@[simp] theorem wp_backup :
    Exec.wp (backup src dest) Q E fs ↔ Exec.wp (doBackup src dest) (fun _ => Q 0) E fs := by
  simp only [backup, Exec.wp_bind, wp_doBackup]
  split
  · simp
  · split <;> simp

/-- The files that `writeToRealData` leaves. -/
def realDataFiles (jobsBuff : CStr) (fs : Files) : Files :=
  syncFiles false ((syncFiles true ((fs.openCreate (.file .jobs)).put (.file .jobs)
    (ftruncate (intSize jobsBuff.len).toNat (fs.content (.file .jobs))))).put (.file .jobs)
      (sized jobsBuff.bytes))

theorem wp_applyBackupForjobs_zero :
    Exec.wp (applyBackupForjobs 0) Q E fs ↔ Q 0 fs := Exec.wp_pure _

theorem wp_applyBackupForjobs {count : Nat} (hcount : count ≠ 0) :
    Exec.wp (applyBackupForjobs count) Q E fs ↔
      if fs.content (.fileCopy .jobs) = [] then Q 0 (fs.openCreate (.fileCopy .jobs))
      else match mappedString (fs.content (.fileCopy .jobs)) with
        | .error e => E e ((fs.openCreate (.fileCopy .jobs)).openCreate (.file .jobs))
        | .ok jobsBuff =>
          if sized jobsBuff.bytes = [] then
            E .aborted ((fs.openCreate (.fileCopy .jobs)).openCreate (.file .jobs))
          else Q 0 (realDataFiles jobsBuff (fs.openCreate (.fileCopy .jobs))) := by
  simp only [applyBackupForjobs, if_neg hcount, Exec.wp_bind, Exec.wp_modify, Exec.wp_get,
    FileStore.content_openCreate]
  by_cases hempty : fs.content (.fileCopy .jobs) = []
  · simp [hempty]
  simp only [if_neg hempty, writeToRealData, Exec.wp_bind, Exec.wp_modify]
  cases mappedString (fs.content (.fileCopy .jobs)) with
  | error e => simp
  | ok jobsBuff =>
    have hlen : (sized jobsBuff.bytes).length = (intSize jobsBuff.len).toNat :=
      length_sized jobsBuff.bytes
    by_cases hsize : intSize jobsBuff.len ≤ 0
    · simp [hsize, (sized_eq_nil_iff jobsBuff.bytes).mpr hsize]
    · have hwhole (old : Bytes) : copyInto (ftruncate (intSize jobsBuff.len).toNat old)
          (sized jobsBuff.bytes) = sized jobsBuff.bytes :=
        copyInto_of_length_eq (by rw [length_ftruncate, hlen])
      have hne : sized jobsBuff.bytes ≠ [] := mt (sized_eq_nil_iff jobsBuff.bytes).mp hsize
      simp only [Exec.wp_ofExcept_ok, if_neg hsize, Exec.wp_bind, Exec.wp_modify, wp_syncJob,
        ne_eq, not_true_eq_false, if_false, Exec.wp_pure, if_neg hne, realDataFiles,
        content_syncFiles, FileStore.content_put, FileStore.content_openCreate, hwhole,
        show (Path.file .jobs = .file .jobsSync) = False by decide]

end rules

end Sized

/-! ## The eight stores -/

inductive BackedStore where
  | projects | env | limits | jobs | jobCpuLimit | jobMemLimit | jobDaemonPid | updateStatus
  deriving DecidableEq, Repr

namespace BackedStore

def store : BackedStore → Store
  | projects => .projects
  | env => .env
  | limits => .limits
  | jobs => .jobs
  | jobCpuLimit => .jobCpuLimit
  | jobMemLimit => .jobMemLimit
  | jobDaemonPid => .jobDaemonPid
  | updateStatus => .updateStatus

/-- The create function of a store; the count of its table decides for three of them. -/
def create (count : Nat) : BackedStore → Exec Files Int
  | projects => Sized.createBackup count
  | env => Sized.createEnvBackup count
  | limits => Sized.createBackupLimit
  | jobs => Sized.createBackupForJobs count
  | jobCpuLimit => Sized.createJobRsLimitBackup
  | jobMemLimit => Sized.createJobRsMmLimitBackup
  | jobDaemonPid => Sized.createBackupDaemonPid
  | updateStatus => Sized.createBackupForUpdateStatus

def apply (count : Nat) : BackedStore → Exec Files Int
  | projects => Sized.applyBackup count
  | env => Sized.applyEnvBackup count
  | limits => Sized.applyBackupLimits
  | jobs => Sized.applyBackupForjobs count
  | jobCpuLimit => Sized.applyJobRsLimitBackup
  | jobMemLimit => Sized.applyJobRsMmLimitBackup
  | jobDaemonPid => Sized.applyJobDaemonPidBackup
  | updateStatus => Sized.applyBackupUpdateStatus

/-- Both functions do nothing for an empty table. -/
def Counted (s : BackedStore) : Prop := s = projects ∨ s = env ∨ s = jobs

instance (s : BackedStore) : Decidable s.Counted := inferInstanceAs (Decidable (_ ∨ _ ∨ _))

def Runs (s : BackedStore) (count : Nat) : Prop := s.Counted → count ≠ 0

instance decidableRuns (s : BackedStore) (count : Nat) : Decidable (s.Runs count) :=
  inferInstanceAs (Decidable (_ → _))

/-- The file that the create function writes. -/
def target (s : BackedStore) : Path :=
  if s = jobCpuLimit then .file .jobCpuLimit else .fileCopy s.store

theorem not_runs {s : BackedStore} {count : Nat} (h : ¬s.Runs count) : s.Counted ∧ count = 0 := by
  simpa [Runs] using h

theorem create_eq (s : BackedStore) (count : Nat) :
    s.create count =
      if s.Runs count then Sized.backup (.file s.store) s.target else pure 0 := by
  by_cases hruns : s.Runs count
  · rw [if_pos hruns]
    cases s with
    | projects | env | jobs => exact if_neg (hruns (by decide))
    | _ => rfl
  · obtain ⟨rfl | rfl | rfl, rfl⟩ := not_runs hruns <;> rw [if_neg hruns] <;> rfl

/-- What the apply functions have in common; that of the jobs is of its own kind. -/
theorem apply_eq {s : BackedStore} (hs : s ≠ jobs) (count : Nat) :
    s.apply count =
      if s.Runs count then Sized.backup (.fileCopy s.store) (.file s.store) else pure 0 := by
  by_cases hruns : s.Runs count
  · rw [if_pos hruns]
    cases s with
    | projects | env => exact if_neg (hruns (by decide))
    | jobs => exact absurd rfl hs
    | _ => rfl
  · obtain ⟨rfl | rfl | rfl, rfl⟩ := not_runs hruns
    · rw [if_neg hruns]
      rfl
    · rw [if_neg hruns]
      rfl
    · exact absurd rfl hs

/-- The prefix of a backup that the apply function copies. -/
def ReadsAs (s : BackedStore) (old content : Bytes) : Prop :=
  if s = jobs then ∃ jobsBuff, mappedString old = .ok jobsBuff ∧ sized jobsBuff.bytes = content
  else sized old = content

/-! ## Restoring -/

variable {s : BackedStore} {applied : Nat} {fs : Files} {Q : Int → Files → Prop}
  {E : Halt → Files → Prop}

/-- The data file has `content` again, and no other file changed, the jobs lock apart. -/
structure RestoredTo (s : BackedStore) (content : Bytes) (before after : Files) : Prop where
  content : after.content (.file s.store) = content
  others : ∀ q, q ≠ .file s.store → (s = jobs → q ≠ .file .jobsSync) → after q = before q

/-- Whatever the data file was overwritten with, the apply function puts `content` back. -/
def AppliesTo (s : BackedStore) (applied : Nat) (content : Bytes) (fs : Files) : Prop :=
  ∀ x, Exec.wp (s.apply applied)
    (fun _ after => RestoredTo s content (fs.put (.file s.store) x) after) (fun _ _ => False)
    (fs.put (.file s.store) x)

theorem not_appliesTo_of_kept {content : Bytes} (hkept : ∀ x, Exec.wp (s.apply applied)
      (fun _ after => after.content (.file s.store) = x) (fun _ _ => True)
      (fs.put (.file s.store) x)) : ¬AppliesTo s applied content fs := by
  intro h
  have hx (x : Bytes) : x = content := by
    obtain ⟨_, _, hsame, hrestored⟩ := Exec.exists_of_wp (hkept x) (h x)
    exact hsame.symm.trans hrestored.content
  -- one of two overwritten contents is not the one to restore
  exact absurd ((hx []).trans (hx [0]).symm) (by decide)

theorem not_appliesTo_of_halt {content : Bytes} (hhalt : ∀ x, Exec.wp (s.apply applied)
      (fun _ _ => False) (fun _ _ => True) (fs.put (.file s.store) x)) :
    ¬AppliesTo s applied content fs := fun h => by
  obtain ⟨_, _, hno, -⟩ := Exec.exists_of_wp (hhalt []) (h [])
  exact hno

theorem AppliesTo.eq_iff {written : Bytes} (hwrites : AppliesTo s applied written fs)
    (content : Bytes) : AppliesTo s applied content fs ↔ written = content := by
  constructor
  · intro h
    obtain ⟨_, _, hwritten, hcontent⟩ := Exec.exists_of_wp (hwrites []) (h [])
    exact hwritten.content.symm.trans hcontent.content
  · rintro rfl
    exact hwrites

theorem openCreate_of_content {fs : Files} {p : Path} (h : fs.content p ≠ []) :
    fs.openCreate p = fs := by
  unfold FileStore.content at h
  unfold FileStore.openCreate FileStore.put FileStore.content
  cases hfs : fs p with
  | none => simp [hfs] at h
  | some bs => rw [Option.getD_some, ← hfs, Function.update_eq_self]

/-- **When the apply function restores a content**: it looks at the backup, and the prefix
of it that it copies is that content. -/
theorem appliesTo_iff_of_ne_jobs (hs : s ≠ jobs) (content : Bytes) :
    AppliesTo s applied content fs ↔
      s.Runs applied ∧ content ≠ [] ∧ s.ReadsAs (fs.content (.fileCopy s.store)) content := by
  have hcopy (x : Bytes) : (fs.put (.file s.store) x).content (.fileCopy s.store) =
      fs.content (.fileCopy s.store) := FileStore.content_put_of_ne (by simp) x
  by_cases hruns : s.Runs applied
  swap
  · refine iff_of_false (not_appliesTo_of_kept fun x => ?_) fun h => hruns h.1
    rw [apply_eq hs, if_neg hruns]
    simp
  rw [ReadsAs, if_neg hs]
  by_cases hempty : fs.content (.fileCopy s.store) = []
  · refine iff_of_false (not_appliesTo_of_kept fun x => ?_) fun h => h.2.1 ?_
    · simp [apply_eq hs, if_pos hruns, Sized.wp_doBackup, hcopy, hempty]
    · rw [← h.2.2, hempty]
      rfl
  by_cases hsized : sized (fs.content (.fileCopy s.store)) = []
  · refine iff_of_false (not_appliesTo_of_halt fun x => ?_) fun h => h.2.1 ?_
    · simp [apply_eq hs, if_pos hruns, Sized.wp_doBackup, hcopy, hempty, hsized]
    · rw [← h.2.2, hsized]
  rw [@AppliesTo.eq_iff s applied fs (sized (fs.content (.fileCopy s.store))) fun x => ?_]
  · exact ⟨fun h => ⟨hruns, h ▸ hsized, h⟩, fun h => h.2.2⟩
  · simp only [apply_eq hs, if_pos hruns, Sized.wp_backup, Sized.wp_doBackup, hcopy, if_neg hempty,
      if_neg hsized]
    rw [openCreate_of_content (p := .fileCopy s.store) (by rw [hcopy]; exact hempty),
      FileStore.rewrite_eq]
    refine ⟨FileStore.content_put _ _ _, fun q hq _ => ?_⟩
    simp [FileStore.openCreate, FileStore.put, hq]

theorem syncFiles_of_ne (lock : Bool) {q : Path} (h : q ≠ .file .jobsSync) (fs : Files) :
    syncFiles lock fs q = fs q := by
  simp [syncFiles, FileStore.rewrite_eq, FileStore.openCreate, FileStore.put, h]

theorem realDataFiles_restored (jobsBuff : CStr) (fs : Files) :
    RestoredTo jobs (sized jobsBuff.bytes) fs (Sized.realDataFiles jobsBuff fs) where
  content := by simp [Sized.realDataFiles, content_syncFiles, store]
  others := fun q hq hsync => by
    simp only [Sized.realDataFiles]
    rw [syncFiles_of_ne _ (hsync rfl)]
    simp only [FileStore.put, Function.update_of_ne (show q ≠ .file .jobs from hq)]
    rw [syncFiles_of_ne _ (hsync rfl)]
    simp [FileStore.openCreate, FileStore.put, show q ≠ .file .jobs from hq]

theorem appliesTo_jobs_iff (content : Bytes) :
    AppliesTo jobs applied content fs ↔
      jobs.Runs applied ∧ content ≠ [] ∧
        jobs.ReadsAs (fs.content (.fileCopy .jobs)) content := by
  have hcopy (x : Bytes) : (fs.put (.file jobs.store) x).content (.fileCopy .jobs) =
      fs.content (.fileCopy .jobs) := FileStore.content_put_of_ne (by simp) x
  by_cases hruns : jobs.Runs applied
  swap
  · refine iff_of_false (not_appliesTo_of_kept fun x => ?_) fun h => hruns h.1
    obtain ⟨-, rfl⟩ := not_runs hruns
    exact Sized.wp_applyBackupForjobs_zero.mpr (FileStore.content_put _ _ _)
  have hcount : applied ≠ 0 := hruns (by decide)
  rw [ReadsAs, if_pos rfl]
  by_cases hempty : fs.content (.fileCopy .jobs) = []
  · refine iff_of_false (not_appliesTo_of_kept fun x => ?_) ?_
    · rw [apply, Sized.wp_applyBackupForjobs hcount, hcopy, if_pos hempty]
      simp
    · rintro ⟨-, -, jobsBuff, hbuff, -⟩
      rw [hempty] at hbuff
      cases hbuff
  cases hbuff : mappedString (fs.content (.fileCopy .jobs)) with
  | error e =>
    refine iff_of_false (not_appliesTo_of_halt fun x => ?_) ?_
    · rw [apply, Sized.wp_applyBackupForjobs hcount, hcopy, if_neg hempty, hbuff]
      trivial
    · rintro ⟨-, -, _, h, -⟩
      cases h
  | ok jobsBuff =>
    by_cases hsized : sized jobsBuff.bytes = []
    · refine iff_of_false (not_appliesTo_of_halt fun x => ?_) ?_
      · rw [apply, Sized.wp_applyBackupForjobs hcount, hcopy, if_neg hempty, hbuff]
        simp [hsized]
      · rintro ⟨-, hne, _, h, hcontent⟩
        cases h
        exact hne (hcontent.symm.trans hsized)
    rw [@AppliesTo.eq_iff jobs applied fs (sized jobsBuff.bytes) fun x => ?_]
    · refine ⟨fun h => ⟨hruns, h ▸ hsized, jobsBuff, rfl, h⟩, ?_⟩
      rintro ⟨-, -, _, h, hcontent⟩
      cases h
      exact hcontent
    · rw [apply, Sized.wp_applyBackupForjobs hcount, hcopy, if_neg hempty, hbuff,
        openCreate_of_content (p := .fileCopy .jobs) (by rw [hcopy]; exact hempty)]
      simp only [if_neg hsized]
      exact realDataFiles_restored jobsBuff _

/-- **When the apply function restores a content**: it looks at the backup, and the prefix
of it that it copies is that content. -/
theorem appliesTo_iff (content : Bytes) :
    AppliesTo s applied content fs ↔
      s.Runs applied ∧ content ≠ [] ∧ s.ReadsAs (fs.content (.fileCopy s.store)) content := by
  by_cases hs : s = jobs
  · subst hs
    exact appliesTo_jobs_iff content
  · exact appliesTo_iff_of_ne_jobs hs content

/-! ## Backup, overwrite, restore -/

/-- When the create function returns 0, the apply function restores what the data file held
before. -/
def Restores (s : BackedStore) (created applied : Nat) (fs : Files) : Prop :=
  Exec.wp (s.create created)
    (fun rc backedUp => rc = 0 → AppliesTo s applied (fs.content (.file s.store)) backedUp)
    (fun _ _ => True) fs

/-- **When the pair is an identity.** The file is not empty. Its size overflows an `int`,
so that the create function gives up; or the apply function does not stop at an empty
table, and the backup is the content: the one that is made here, of a file below 2 GiB, or
where none is made the one that is there. For the jobs the content has no NUL and does
not fill its pages. -/
def Recoverable (s : BackedStore) (created applied : Nat) (fs : Files) : Prop :=
  fs.content (.file s.store) ≠ [] ∧
    (s.Runs created ∧ intSize (fs.content (.file s.store)).length ≤ 0 ∨
      s.Runs applied ∧
        if s.Runs created ∧ s ≠ jobCpuLimit then
          (fs.content (.file s.store)).length < 2 ^ 31 ∧
            (s = jobs → 0 ∉ fs.content (.file s.store) ∧
              (fs.content (.file s.store)).length % pageSize ≠ 0)
        else s.ReadsAs (fs.content (.fileCopy s.store)) (fs.content (.file s.store)))

theorem length_lt_of_sized {data content : Bytes} (h : sized data = content) :
    content.length < 2 ^ 31 := by
  have hlt := intSize_lt data.length
  rw [← h, length_sized]
  omega

theorem sized_ofBytes_eq_iff {content : Bytes} (hlt : content.length < 2 ^ 31) :
    sized (CStr.ofBytes content).bytes = content ↔ 0 ∉ content := by
  constructor
  · intro h
    have hprefix : (CStr.ofBytes content).bytes <+: content := List.takeWhile_prefix _
    have hlen : content.length ≤ (CStr.ofBytes content).bytes.length := by
      conv_lhs => rw [← h]
      exact List.length_take_le' _ _
    rw [← hprefix.eq_of_length (le_antisymm hprefix.length_le hlen)]
    exact (CStr.ofBytes content).noNul
  · intro h
    rw [CStr.ofBytes_bytes_of_noNul h, (sized_eq_self_iff content).mpr hlt]

/-- When a backup that was just made reads as the content. -/
theorem readsAs_sized_iff (content : Bytes) :
    s.ReadsAs (sized content) content ↔
      content.length < 2 ^ 31 ∧ (s = jobs → 0 ∉ content ∧ content.length % pageSize ≠ 0) := by
  by_cases hlt : content.length < 2 ^ 31
  swap
  · refine iff_of_false (fun h => hlt ?_) fun h => hlt h.1
    rw [ReadsAs] at h
    split at h
    · obtain ⟨_, _, h⟩ := h
      exact length_lt_of_sized h
    · exact length_lt_of_sized h
  rw [ReadsAs, (sized_eq_self_iff content).mpr hlt, and_iff_right hlt]
  by_cases hs : s = jobs
  swap
  · simp [hs, (sized_eq_self_iff content).mpr hlt]
  rw [if_pos hs, forall_prop_of_true hs]
  constructor
  · rintro ⟨jobsBuff, hbuff, hcontent⟩
    unfold mappedString at hbuff
    split at hbuff
    · rename_i hends
      cases hbuff
      have hnul := (sized_ofBytes_eq_iff hlt).mp hcontent
      exact ⟨hnul, hends.resolve_left hnul⟩
    · cases hbuff
  · rintro ⟨hnul, hpage⟩
    exact ⟨.ofBytes content, if_pos (.inr hpage), (sized_ofBytes_eq_iff hlt).mpr hnul⟩

theorem content_copy_created (data : Bytes) (fs : Files) :
    (((fs.openCreate (.file s.store)).openCreate s.target).rewrite s.target data).content
        (.fileCopy s.store) =
      if s = jobCpuLimit then fs.content (.fileCopy s.store) else data := by
  rw [FileStore.content_rewrite, FileStore.content_openCreate, FileStore.content_openCreate,
    target]
  split
  · rename_i hs
    simp [hs]
  · simp

/-- **Backup then restore** is the identity of a store exactly where it is recoverable. -/
theorem backup_restores_iff (s : BackedStore) (created applied : Nat) (fs : Files) :
    s.Restores created applied fs ↔ s.Recoverable created applied fs := by
  rw [Restores, Recoverable, create_eq]
  by_cases hruns : s.Runs created
  swap
  · rw [if_neg hruns, Exec.wp_pure, forall_prop_of_true rfl, appliesTo_iff,
      if_neg fun h => hruns h.1]
    simp only [hruns, false_and, false_or]
    exact and_left_comm
  rw [if_pos hruns, Sized.wp_backup, Sized.wp_doBackup, ← sized_eq_nil_iff]
  simp only [forall_const, true_and, hruns, appliesTo_iff]
  by_cases hempty : fs.content (.file s.store) = []
  · simp [hempty]
  by_cases hsized : sized (fs.content (.file s.store)) = []
  · simp [hempty, hsized]
  simp only [hsized, if_false, false_or, content_copy_created, ne_eq, hempty, not_false_eq_true,
    true_and]
  by_cases hs : s = jobCpuLimit
  · simp [hs]
  · rw [if_neg hs, if_pos hs, readsAs_sized_iff]

/-- The cpu limit of the jobs is `5`, and an older backup of it says `9`. -/
def changedCpuLimit : Files := fun q =>
  if q = .file .jobCpuLimit then some [53]
  else if q = .fileCopy .jobCpuLimit then some [57]
  else none

/-- The create function of the cpu limit copies the file onto itself: what is restored is
the older backup. -/
theorem not_backup_restores :
    ¬∀ (s : BackedStore) (created applied : Nat) (fs : Files), s.Restores created applied fs := by
  intro h
  have hcpu := h jobCpuLimit 0 0 changedCpuLimit
  rw [Restores, create_eq, if_pos (by decide), Sized.wp_backup, Sized.wp_doBackup,
    if_neg (by decide), if_neg (by decide)] at hcpu
  have hreads := ((appliesTo_iff _).mp (hcpu rfl)).2.2
  rw [content_copy_created, ReadsAs, if_neg (by decide), if_pos rfl] at hreads
  exact absurd hreads (by decide)

end BackedStore

end MiniRunner
