import MiniRunner.Clib.Descriptors
import MiniRunner.Daemon
import MiniRunner.Sync.Writers

/-!
# The descriptors of the daemon

The loop of `runJobsDaemon` once more, with its `open`, `pipe` and `close` calls.
`loadJobsDaemon` never closes the jobs file and the parent of a job keeps the read end of
its pipe, so each round leaves descriptors behind; `isJobFree`, `doBackup` and
`removeContentFromJobsFile` have paths that leave one more. A refused `open` ends the
daemon in `loadJobsDaemon` and in `doBackup`, and makes `save_jobs_daemon` fail again and
again; a refused `pipe` skips the job.

The other processes may change the files before any `open`. Whatever they do, the rounds
and the job starts together are no more than the descriptors left (`rounds_spend`). Left
alone, the daemon does what `Daemon.cycle` says as long as they last, and it lasts exactly
as long (`rounds_return_iff`).
-/

namespace MiniRunner.Descriptors

open Clib

/-- What the other processes do to the files before a call of the daemon. -/
structure Others (W : Type) where
  act : Files → W → Files × W

def Others.quiet {W : Type} : Others W := ⟨fun fs w => (fs, w)⟩

abbrev Process (nofile : Nat) (W : Type) := Proc nofile (Daemon W)

variable {nofile : Nat} {W : Type} (sys : DaemonCalls W) (others : Others W)

/-! ## Calls -/

def onFiles {α : Type} (x : Exec Files α) : Exec (Process nofile W) α :=
  Proc.onState (Daemon.onFiles x)

def content (path : Path) : Exec (Process nofile W) Bytes := do
  let p ← get
  pure (p.state.files.content path)

/-- `open` with `O_CREAT`: without a free descriptor nothing is created. -/
def openFile (path : Path) : Exec (Process nofile W) Bool := do
  Proc.onState (modify fun d =>
    { d with
      files := (others.act d.files d.world).1
      world := (others.act d.files d.world).2 })
  if (← Proc.take 1) = false then pure false
  else
    onFiles (modify (·.openCreate path))
    pure true

/-- The bytes of a file that a mapping of `size` bytes can still read: what the file has
lost reads as zeros up to the end of its last page, and faults behind it. -/
def mapped (size : Nat) (data : Bytes) : Bytes :=
  (ftruncate ((data.length + pageSize - 1) / pageSize * pageSize) data).take size

/-! ## `io_man/` and `sync/` -/

/-- `copyBackup` of a mapping of `size` bytes of the source. -/
def copyBackup (src : Path) (size : Nat) (dest : Path) : Exec (Process nofile W) Int := do
  if (← openFile others dest) = false then throw .aborted
  else if size = 0 then throw .aborted
  else
    let data ← content src
    onFiles (modify fun fs =>
      fs.put dest (copyInto (ftruncate size (fs.content dest)) (mapped size data)))
    if (mapped size data).length < size then throw .aborted
    else
      Proc.close
      pure 0

/-- `doBackup` returns early on an empty source, which stays open. -/
def doBackup (src dest : Path) : Exec (Process nofile W) Int := do
  if (← openFile others src) = false then throw .aborted
  else
    let data ← content src
    if data = [] then pure 0
    else if (← copyBackup others src data.length dest) ≠ 0 then
      Proc.close
      pure (-1)
    else
      Proc.close
      pure 0

def createBackupForJobs (numberOfJobs : Nat) : Exec (Process nofile W) Int :=
  if numberOfJobs = 0 then pure 0 else do
    if (← doBackup others (.file .jobs) (.fileCopy .jobs)) ≠ 0 then pure (-1) else pure 0

/-- `isJobFree`, which answers -1 when it cannot open the lock file and leaves an empty
one open. -/
def isJobFree : Exec (Process nofile W) Int := do
  if (← openFile others (.file .jobsSync)) = false then pure (-1)
  else
    let data ← content (.file .jobsSync)
    if data = [] then pure 1
    else
      Proc.close
      if readsFree data then pure 1 else pure 0

/-- `while (!isJobFree())`, at most `polls` times; the answer -1 ends it too. -/
def awaitJobFree : Nat → Exec (Process nofile W) Unit
  | 0 => throw .blocked
  | polls + 1 => do
    if (← isJobFree others) = 0 then awaitJobFree polls else pure ()

def syncJob (lock : Bool) : Exec (Process nofile W) Int := do
  if (← openFile others (.file .jobsSync)) = false then pure (-1)
  else
    onFiles (modify (·.rewrite (.file .jobsSync) (syncText lock)))
    Proc.close
    pure 0

/-! ## `save_jobs_daemon` -/

/-- `memcpy` into the mapping of the jobs file; it faults where the file has lost a page. -/
def copyData (data : Bytes) : Exec (Process nofile W) Unit := do
  let old ← content (.file .jobs)
  onFiles (modify (·.put (.file .jobs) (copyInto old data)))
  if Sync.onPage old (data.length - 1) = false then throw .aborted else pure ()

def writeData (numberOfJobs polls : Nat) (dataTobeWritten : Bytes) :
    Exec (Process nofile W) Int := do
  if (← openFile others (.file .jobs)) = false then pure (-1)
  else if (← createBackupForJobs others numberOfJobs) ≠ 0 then pure (-1)
  else
    onFiles (modify fun fs =>
      fs.put (.file .jobs) (ftruncate dataTobeWritten.length (fs.content (.file .jobs))))
    -- a mapping of length 0 is refused
    if dataTobeWritten = [] then
      Proc.close
      pure (-1)
    else
      awaitJobFree others polls
      if (← syncJob others true) ≠ 0 then
        copyData dataTobeWritten
        pure (-1)
      else
        copyData dataTobeWritten
        Proc.close
        if (← syncJob others false) ≠ 0 then pure (-1) else pure 0

/-- The truncation to 0, which leaves the file open. -/
def removeContentFromJobsFile (numberOfJobs : Nat) : Exec (Process nofile W) Int := do
  if (← openFile others (.file .jobs)) = false then pure (-1)
  else if (← createBackupForJobs others numberOfJobs) ≠ 0 then pure (-1)
  else
    onFiles (modify (·.put (.file .jobs) []))
    pure 0

def saveJobsDaemon (numberOfJobs polls : Nat) (jobs : Table Job) : Exec (Process nofile W) Int :=
  if numberOfJobs = 0 ∨ jobs.isNull then do
    if (← removeContentFromJobsFile others numberOfJobs) ≠ 0 then pure (-1) else pure 0
  else if jobs.items = [] then throw .undefined
  else do
    if (← writeData others numberOfJobs polls (jobsText jobs.items)) ≠ 0 then pure (-1)
    else pure 0

/-! ## `runJobsDaemon` -/

/-- `loadJobsDaemon`: no path closes the jobs file. -/
def loadJobsDaemon (polls : Nat) : Exec (Process nofile W) Int := do
  awaitJobFree others polls
  if (← openFile others (.file .jobs)) = false then throw .aborted
  else
    let p ← get
    let (rc, jobs) ← Exec.ofExcept
      (MiniRunner.loadJobsDaemon p.state.jobs (p.state.files.content (.file .jobs)))
    Proc.onState (modify fun d => { d with jobs := jobs })
    pure rc

/-- One round of the loop over the jobs, with the number of pipes it made: the parent
closes the write end only. -/
def runJob (j : Job) : Exec (Process nofile W) (Job × Nat) := do
  let p ← get
  if Daemon.isDue p.state.waitedTime j = false then pure (j, 0)
  else if (← Proc.take 2) = false then pure (j, 0)
  else
    let r := Daemon.runJob sys p.state.waitedTime j p.state.world
    Proc.onState (modify fun d => { d with world := r.2 })
    Proc.close
    pure (r.1, 1)

def runJobs : (js : List Job) →
    Exec (Process nofile W) { r : List Job × Nat // r.1.length = js.length }
  | [] => pure ⟨([], 0), rfl⟩
  | j :: js => do
    let r ← runJob sys j
    let rs ← runJobs js
    pure ⟨(r.1 :: rs.1.1, r.2 + rs.1.2), congrArg (· + 1) rs.2⟩

/-- The due jobs, run in the table, with the number of them that were given a pipe. -/
def runDue : Exec (Process nofile W) Nat := do
  let p ← get
  let r ← runJobs sys p.state.jobs.items
  Proc.onState (modify fun d =>
    { d with jobs := p.state.jobs.mapItems (fun _ => r.1.1) r.2 })
  pure r.1.2

/-- `save_jobs_daemon` until it returns 0, at most `attempts` times. -/
def save (numberOfJobs polls : Nat) : Nat → Exec (Process nofile W) Unit
  | 0 => throw .blocked
  | attempts + 1 => do
    let p ← get
    if (← saveJobsDaemon others numberOfJobs polls p.state.jobs) ≠ 0 then
      save numberOfJobs polls attempts
    else pure ()

/-- One round of the loop of `runJobsDaemon`: the number of jobs it started, none when the
file was rejected. -/
def cycle (numberOfJobs polls attempts : Nat) : Exec (Process nofile W) (Option Nat) := do
  if (← loadJobsDaemon others polls) ≠ 0 then
    Proc.onState Daemon.renewJobs
    pure none
  else
    let started ← runDue sys
    save others numberOfJobs polls (attempts + 1)
    Proc.onState (modify fun d => { d with waitedTime := d.waitedTime + 1 })
    Proc.onState Daemon.renewJobs
    pure (some started)

/-- Some rounds, with the number of jobs started in them. -/
def rounds (numberOfJobs polls attempts : Nat) : Nat → Exec (Process nofile W) Nat
  | 0 => pure 0
  | k + 1 => do
    let r ← cycle sys others numberOfJobs polls attempts
    let started ← rounds numberOfJobs polls attempts k
    pure (r.getD 0 + started)

/-! ## What a round leaves open -/

section spends

variable {sys others}

theorem spends_onFiles {α : Type} (x : Exec Files α) :
    Proc.Spends (onFiles x : Exec (Process nofile W) α) fun _ => 0 :=
  .onState _

theorem spends_content (path : Path) :
    Proc.Spends (content path : Exec (Process nofile W) Bytes) fun _ => 0 :=
  .bind .get fun _ => .pure _ (by omega)

theorem spends_openFile (path : Path) :
    Proc.Spends (openFile others path : Exec (Process nofile W) Bool)
      fun ok => if ok then 1 else 0 := by
  refine .bind (.onState _) fun _ => .bind (.take 1) fun ok => ?_
  cases ok with
  | false => exact .pure _ (by simp)
  | true => exact .bind (spends_onFiles _) fun _ => .pure _ (by simp)

theorem spends_open {α : Type} {path : Path} {x y : Exec (Process nofile W) α} {k : α → Int}
    (hx : Proc.Spends x k) (hy : Proc.Spends y fun a => k a - 1) :
    Proc.Spends (openFile others path >>= fun ok => if ok = false then x else y) k := by
  refine .bind (spends_openFile path) fun ok => ?_
  cases ok with
  | false => simpa using hx
  | true => simpa using hy

theorem spends_copyBackup (src dest : Path) (size : Nat) :
    Proc.Spends (copyBackup others src size dest : Exec (Process nofile W) Int) fun _ => 0 := by
  refine spends_open (.throw _) (.ite (fun _ => .throw _) fun _ => ?_)
  refine .bind (spends_content _) fun data => .bind (spends_onFiles _) fun _ => ?_
  exact .ite (fun _ => .throw _) fun _ => .bind .close fun _ => .pure _ (by omega)

theorem spends_doBackup (src dest : Path) :
    Proc.Spends (doBackup others src dest : Exec (Process nofile W) Int) fun _ => 0 := by
  refine spends_open (.throw _) (.bind (spends_content _) fun data => ?_)
  refine .ite (fun _ => .pure _ (by omega)) fun _ => .bind (spends_copyBackup _ _ _) fun rc => ?_
  exact .ite (fun _ => .bind .close fun _ => .pure _ (by omega))
    fun _ => .bind .close fun _ => .pure _ (by omega)

theorem spends_createBackupForJobs (n : Nat) :
    Proc.Spends (createBackupForJobs others n : Exec (Process nofile W) Int) fun _ => 0 :=
  .ite (fun _ => .pure _ (by omega)) fun _ => .bind (spends_doBackup _ _) fun _ =>
    .ite (fun _ => .pure _ (by omega)) fun _ => .pure _ (by omega)

theorem spends_isJobFree :
    Proc.Spends (isJobFree others : Exec (Process nofile W) Int) fun _ => 0 := by
  refine spends_open (.pure _ (by omega)) (.bind (spends_content _) fun data => ?_)
  refine .ite (fun _ => .pure _ (by omega)) fun _ => .bind .close fun _ => ?_
  exact .ite (fun _ => .pure _ (by omega)) fun _ => .pure _ (by omega)

theorem spends_awaitJobFree (polls : Nat) :
    Proc.Spends (awaitJobFree others polls : Exec (Process nofile W) Unit) fun _ => 0 := by
  induction polls with
  | zero => exact .throw _
  | succ polls ih =>
    exact .bind spends_isJobFree fun _ =>
      .ite (fun _ => ih.mono fun _ => by omega) fun _ => .pure _ (by omega)

theorem spends_syncJob (lock : Bool) :
    Proc.Spends (syncJob others lock : Exec (Process nofile W) Int) fun _ => 0 :=
  spends_open (.pure _ (by omega)) (.bind (spends_onFiles _) fun _ =>
    .bind .close fun _ => .pure _ (by omega))

theorem spends_copyData (data : Bytes) :
    Proc.Spends (copyData data : Exec (Process nofile W) Unit) fun _ => 0 :=
  .bind (spends_content _) fun _ => .bind (spends_onFiles _) fun _ =>
    .ite (fun _ => .throw _) fun _ => .pure _ (by omega)

theorem spends_writeData (n polls : Nat) (data : Bytes) :
    Proc.Spends (writeData others n polls data : Exec (Process nofile W) Int) fun _ => 0 := by
  refine spends_open (.pure _ (by omega)) (.bind (spends_createBackupForJobs n) fun rc => ?_)
  refine .ite (fun _ => .pure _ (by omega)) fun _ => .bind (spends_onFiles _) fun _ => ?_
  refine .ite (fun _ => .bind .close fun _ => .pure _ (by omega)) fun _ => ?_
  refine .bind (spends_awaitJobFree polls) fun _ => .bind (spends_syncJob true) fun rc => ?_
  refine .ite (fun _ => .bind (spends_copyData data) fun _ => .pure _ (by omega)) fun _ => ?_
  refine .bind (spends_copyData data) fun _ => .bind .close fun _ => ?_
  exact .bind (spends_syncJob false) fun _ =>
    .ite (fun _ => .pure _ (by omega)) fun _ => .pure _ (by omega)

theorem spends_removeContentFromJobsFile (n : Nat) :
    Proc.Spends (removeContentFromJobsFile others n : Exec (Process nofile W) Int) fun _ => 0 :=
  spends_open (.pure _ (by omega)) (.bind (spends_createBackupForJobs n) fun _ =>
    .ite (fun _ => .pure _ (by omega)) fun _ =>
      .bind (spends_onFiles _) fun _ => .pure _ (by omega))

theorem spends_saveJobsDaemon (n polls : Nat) (jobs : Table Job) :
    Proc.Spends (saveJobsDaemon others n polls jobs : Exec (Process nofile W) Int)
      fun _ => 0 := by
  refine .ite (fun _ => .bind (spends_removeContentFromJobsFile n) fun _ => ?_)
    fun _ => .ite (fun _ => .throw _) fun _ => .bind (spends_writeData n polls _) fun _ => ?_
  all_goals exact .ite (fun _ => .pure _ (by omega)) fun _ => .pure _ (by omega)

theorem spends_save (n polls attempts : Nat) :
    Proc.Spends (save others n polls attempts : Exec (Process nofile W) Unit) fun _ => 0 := by
  induction attempts with
  | zero => exact .throw _
  | succ attempts ih =>
    exact .bind .get fun p => .bind (spends_saveJobsDaemon n polls _) fun _ =>
      .ite (fun _ => ih.mono fun _ => by omega) fun _ => .pure _ (by omega)

theorem spends_loadJobsDaemon (polls : Nat) :
    Proc.Spends (loadJobsDaemon others polls : Exec (Process nofile W) Int) fun _ => 1 := by
  refine .bind (spends_awaitJobFree polls) fun _ => spends_open (.throw _) (.bind .get fun p => ?_)
  exact .bind (.ofExcept (k := fun _ => 0) _ fun _ => by omega) fun r =>
    .bind (.onState _) fun _ => .pure _ (by omega)

theorem spends_runJob (j : Job) :
    Proc.Spends (runJob sys j : Exec (Process nofile W) (Job × Nat)) fun r => r.2 := by
  refine .bind .get fun p => .ite (fun _ => .pure _ (by simp)) fun _ => ?_
  refine .bind (.take 2) fun ok => ?_
  cases ok with
  | false => exact .pure _ (by simp)
  | true => exact .bind (.onState _) fun _ => .bind .close fun _ => .pure _ (by simp)

theorem spends_runJobs (js : List Job) :
    Proc.Spends (runJobs sys js : Exec (Process nofile W) _) fun r => r.1.2 := by
  induction js with
  | nil => exact .pure _ (by simp)
  | cons j js ih =>
    exact .bind (spends_runJob j) fun r => .bind ih fun rs => .pure _ (by simp only; omega)

theorem spends_runDue :
    Proc.Spends (runDue sys : Exec (Process nofile W) Nat) fun started => started :=
  .bind .get fun _ => .bind (spends_runJobs _) fun _ =>
    .bind (.onState _) fun _ => .pure _ (by omega)

/-- **A round costs a descriptor**, and each job started in it one more. -/
theorem spends_cycle (n polls attempts : Nat) :
    Proc.Spends (cycle sys others n polls attempts : Exec (Process nofile W) (Option Nat))
      fun r => 1 + (r.getD 0 : Nat) := by
  refine .bind (spends_loadJobsDaemon polls) fun rc => .ite (fun _ => ?_) fun _ => ?_
  · exact .bind (.onState _) fun _ => .pure _ (by simp)
  · refine .bind spends_runDue fun started => ?_
    exact .bind (spends_save n polls _) fun _ => .bind (.onState _) fun _ =>
      .bind (.onState _) fun _ => .pure _ (by simp)

theorem spends_rounds (n polls attempts k : Nat) :
    Proc.Spends (rounds sys others n polls attempts k : Exec (Process nofile W) Nat)
      fun started => (k + started : Nat) := by
  induction k with
  | zero => exact .pure _ (by simp)
  | succ k ih =>
    exact .bind (spends_cycle n polls attempts) fun r => .bind ih fun started =>
      .pure _ (by omega)

/-- **The life of the daemon is bounded**: however the other processes change the files,
its rounds and its job starts together are no more than the descriptors it had left. -/
theorem rounds_spend (sys : DaemonCalls W) (others : Others W) (n polls attempts k : Nat)
    (p : Process nofile W) :
    Exec.wp (rounds sys others n polls attempts k)
      (fun started p' => p.opened + k + started ≤ p'.opened ∧ p'.opened ≤ nofile)
      (fun _ _ => True) p :=
  Exec.wp_mono (spends_rounds n polls attempts k p)
    (fun started p' h => ⟨Int.ofNat_le.mp (by simpa [Int.add_assoc] using h), p'.le⟩)
    fun _ _ he => he

end spends

/-! ## A daemon with descriptors left -/

section room

variable {sys} {p : Process nofile W} {E : Halt → Process nofile W → Prop}

def withFiles (p : Process nofile W) (fs : Files) : Process nofile W :=
  { p with state := { p.state with files := fs } }

theorem withFiles_mk {d : Daemon W} {n : Nat} {h : n ≤ nofile} (fs : Files) :
    withFiles ⟨d, n, h⟩ fs = ⟨{ d with files := fs }, n, h⟩ := rfl

@[simp] theorem wp_onFiles {α : Type} {x : Exec Files α} {Q : α → Process nofile W → Prop} :
    Exec.wp (onFiles x) Q E p ↔
      Exec.wp x (fun a fs => Q a (withFiles p fs)) (fun e fs => E e (withFiles p fs))
        p.state.files := by
  rw [onFiles, Proc.wp_onState, Daemon.wp_onFiles]
  exact Iff.rfl

@[simp] theorem wp_content {path : Path} {Q : Bytes → Process nofile W → Prop} :
    Exec.wp (content path) Q E p ↔ Q (p.state.files.content path) p := by
  rw [content, Exec.wp_bind, Exec.wp_get, Exec.wp_pure]

theorem wp_openFile {path : Path} {Q : Bool → Process nofile W → Prop} :
    Exec.wp (openFile .quiet path) Q E p ↔
      (∀ h : p.opened + 1 ≤ nofile,
        Q true ⟨{ p.state with files := p.state.files.openCreate path }, p.opened + 1, h⟩) ∧
      (nofile < p.opened + 1 → Q false p) := by
  rw [openFile, Exec.wp_bind, Proc.wp_onState, Exec.wp_modify, Exec.wp_bind, Proc.wp_take]
  simp only [Bool.true_eq_false, if_false, if_true, Exec.wp_bind, wp_onFiles, Exec.wp_modify,
    Exec.wp_pure]
  exact Iff.rfl

theorem wp_open {α : Type} {path : Path} {x y : Exec (Process nofile W) α}
    {Q : α → Process nofile W → Prop} (h : p.opened + 1 ≤ nofile) :
    Exec.wp (openFile .quiet path >>= fun ok => if ok = false then x else y) Q E p ↔
      Exec.wp y Q E
        ⟨{ p.state with files := p.state.files.openCreate path }, p.opened + 1, h⟩ := by
  rw [Exec.wp_bind, wp_openFile]
  simp only [Bool.true_eq_false, if_false, if_true]
  exact ⟨fun hQ => hQ.1 h, fun hQ => ⟨fun _ => hQ, fun hfull => by omega⟩⟩

theorem wp_open_full {α : Type} {path : Path} {x y : Exec (Process nofile W) α}
    {Q : α → Process nofile W → Prop} (h : nofile < p.opened + 1) :
    Exec.wp (openFile .quiet path >>= fun ok => if ok = false then x else y) Q E p ↔
      Exec.wp x Q E p := by
  rw [Exec.wp_bind, wp_openFile]
  simp only [Bool.true_eq_false, if_false, if_true]
  exact ⟨fun hQ => hQ.2 h, fun hQ => ⟨fun hroom => by omega, fun _ => hQ⟩⟩

theorem mapped_length (data : Bytes) : mapped data.length data = data := by
  have hround : data.length ≤ (data.length + pageSize - 1) / pageSize * pageSize := by
    have hdiv := Nat.div_add_mod (data.length + pageSize - 1) pageSize
    have hmod := Nat.mod_lt (data.length + pageSize - 1) (y := pageSize) (by decide)
    rw [Nat.mul_comm] at hdiv
    have hpage : pageSize = 4096 := rfl
    omega
  rw [mapped, ftruncate, List.take_of_length_le hround, List.take_left]

theorem wp_doBackup {src dest : Path} {Q : Int → Process nofile W → Prop}
    (h : p.opened + 2 ≤ nofile) (hsrc : p.state.files.content src ≠ []) :
    Exec.wp (doBackup .quiet src dest) Q E p ↔
      Q 0 (withFiles p (doBackupFiles src dest p.state.files)) := by
  have hlen : (p.state.files.content src).length ≠ 0 := by simpa using hsrc
  rw [doBackup, wp_open (by omega)]
  simp only [Exec.wp_bind, wp_content, FileStore.content_openCreate, hsrc, if_false]
  rw [copyBackup, wp_open (by exact h)]
  simp only [hlen, if_false, Exec.wp_bind, wp_content, FileStore.content_openCreate,
    mapped_length, wp_onFiles, Exec.wp_modify, Nat.lt_irrefl, withFiles_mk, Proc.wp_close_succ,
    Exec.wp_pure, ne_eq, not_true_eq_false, copyInto_of_length_eq, length_ftruncate,
    ← FileStore.rewrite_eq]
  rw [doBackupFiles, if_neg hsrc]
  exact Iff.rfl

theorem wp_isJobFree {Q : Int → Process nofile W → Prop} (h : p.opened + 1 ≤ nofile)
    (hsync : p.state.files.content (.file .jobsSync) ≠ []) :
    Exec.wp (isJobFree .quiet) Q E p ↔
      Q (if readsFree (p.state.files.content (.file .jobsSync)) then 1 else 0)
        (withFiles p (p.state.files.openCreate (.file .jobsSync))) := by
  rw [isJobFree, wp_open h]
  simp only [Exec.wp_bind, wp_content, FileStore.content_openCreate, hsync, if_false,
    Proc.wp_close_succ]
  split <;> exact Exec.wp_pure _

theorem wp_awaitJobFree {polls : Nat} {Q : Unit → Process nofile W → Prop}
    (h : p.opened + 1 ≤ nofile) (hfree : LockFree p.state.files)
    (hsync : p.state.files.content (.file .jobsSync) ≠ []) :
    Exec.wp (awaitJobFree .quiet (polls + 1)) Q E p ↔
      Q () (withFiles p (p.state.files.openCreate (.file .jobsSync))) := by
  have hreads : readsFree (p.state.files.content (.file .jobsSync)) = true := hfree
  rw [awaitJobFree, Exec.wp_bind, wp_isJobFree h hsync, if_pos hreads, if_neg (by decide)]
  exact Exec.wp_pure _

theorem wp_syncJob {lock : Bool} {Q : Int → Process nofile W → Prop}
    (h : p.opened + 1 ≤ nofile) :
    Exec.wp (syncJob .quiet lock) Q E p ↔ Q 0 (withFiles p (syncFiles lock p.state.files)) := by
  rw [syncJob, wp_open h]
  simp only [Exec.wp_bind, wp_onFiles, Exec.wp_modify, withFiles_mk, Proc.wp_close_succ,
    Exec.wp_pure]
  exact Iff.rfl

theorem wp_copyData {data : Bytes} {Q : Unit → Process nofile W → Prop} (hdata : data ≠ [])
    (hlen : (p.state.files.content (.file .jobs)).length = data.length) :
    Exec.wp (copyData data) Q E p ↔
      Q () (withFiles p (p.state.files.put (.file .jobs)
        (copyInto (p.state.files.content (.file .jobs)) data))) := by
  have hpos := List.length_pos_iff.mpr hdata
  have hpage : Sync.onPage (p.state.files.content (.file .jobs)) (data.length - 1) = true :=
    Sync.onPage_of_lt (by omega)
  simp only [copyData, Exec.wp_bind, wp_content, wp_onFiles, Exec.wp_modify, hpage,
    Bool.true_eq_false, if_false, Exec.wp_pure]

/-- The files `writeData` leaves when it begins to wait. -/
def truncatedFiles (n len : Nat) (fs : Files) : Files :=
  let fs := backupFiles n (.file .jobs) (.fileCopy .jobs) (fs.openCreate (.file .jobs))
  fs.put (.file .jobs) (ftruncate len (fs.content (.file .jobs)))

theorem length_truncatedFiles (n len : Nat) (fs : Files) :
    ((truncatedFiles n len fs).content (.file .jobs)).length = len := by
  rw [truncatedFiles, FileStore.content_put, length_ftruncate]

theorem sync_truncatedFiles (n len : Nat) (fs : Files) :
    (truncatedFiles n len fs).content (.file .jobsSync) = fs.content (.file .jobsSync) := by
  rw [truncatedFiles, FileStore.content_put_of_ne (by decide),
    content_backupFiles_of_ne (by decide), FileStore.content_openCreate]

/-- **With three descriptors left a save is the plain save**, and closes what it opens. -/
theorem wp_writeData {n polls : Nat} {data : Bytes} {Q : Int → Process nofile W → Prop}
    (h : p.opened + 3 ≤ nofile) (hn : n ≠ 0) (hdata : data ≠ [])
    (hjobs : p.state.files.content (.file .jobs) ≠ []) (hfree : LockFree p.state.files)
    (hsync : p.state.files.content (.file .jobsSync) ≠ []) :
    Exec.wp (writeData .quiet n (polls + 1) data) Q E p ↔
      Exec.wp (writeJobsData n data) (fun rc fs => Q rc (withFiles p fs))
        (fun e fs => E e (withFiles p fs)) p.state.files := by
  have hlock := sync_truncatedFiles n data.length p.state.files
  have hreads : readsFree (p.state.files.content (.file .jobsSync)) = true := hfree
  rw [writeData, wp_open (by omega)]
  simp only [createBackupForJobs, hn, if_false, Exec.wp_bind]
  rw [wp_doBackup (by exact h) (by simpa using hjobs)]
  have htruncated : ∀ fs, (doBackupFiles (.file .jobs) (.fileCopy .jobs)
      (FileStore.openCreate fs (.file .jobs))).put (.file .jobs) (ftruncate data.length
        ((doBackupFiles (.file .jobs) (.fileCopy .jobs)
          (FileStore.openCreate fs (.file .jobs))).content (.file .jobs))) =
      truncatedFiles n data.length fs := fun fs => by simp [truncatedFiles, backupFiles, hn]
  simp only [ne_eq, not_true_eq_false, if_false, Exec.wp_pure, Exec.wp_bind, hdata, wp_onFiles,
    Exec.wp_modify, withFiles_mk, writeJobsData, MiniRunner.createBackupForJobs,
    wp_backupUnlessEmpty, backupFiles, hn, htruncated, MiniRunner.wp_isJobFree, hlock, hreads,
    Bool.true_eq_false, MiniRunner.wp_syncJob]
  rw [wp_awaitJobFree (by simp only; omega) ((LockFree.congr hlock).mpr hfree) (hlock ▸ hsync)]
  simp only [withFiles_mk]
  rw [wp_syncJob (by simp only; omega)]
  simp only [not_true_eq_false, if_false, withFiles_mk, Exec.wp_bind]
  rw [wp_copyData hdata (by simp [content_syncFiles, length_truncatedFiles])]
  simp only [withFiles_mk, Proc.wp_close_succ]
  rw [wp_syncJob (by simp only; omega)]
  simp only [not_true_eq_false, if_false, withFiles_mk, Exec.wp_pure]
  exact Iff.rfl

theorem wp_save {n polls attempts : Nat} {fs : Files} {Q : Unit → Process nofile W → Prop}
    (h : p.opened + 3 ≤ nofile) (hn : n ≠ 0) (hitems : p.state.jobs.items ≠ [])
    (hjobs : p.state.files.content (.file .jobs) ≠ []) (hfree : LockFree p.state.files)
    (hsync : p.state.files.content (.file .jobsSync) ≠ [])
    (hrun : (writeJobsData n (jobsText p.state.jobs.items)).run p.state.files = .ok 0 fs) :
    Exec.wp (save .quiet n (polls + 1) (attempts + 1)) Q E p ↔ Q () (withFiles p fs) := by
  have hnull : ¬(n = 0 ∨ p.state.jobs.isNull = true) := by
    simp [hn, Table.isNull_eq_false hitems]
  simp only [save, Exec.wp_bind, Exec.wp_get, saveJobsDaemon, hnull, if_false, hitems]
  rw [wp_writeData h hn (jobsText_ne_nil hitems) hjobs hfree hsync, Exec.wp_of_run hrun]
  simp only [ne_eq, not_true_eq_false, if_false, Exec.wp_pure]

theorem wp_loadJobsDaemon {polls : Nat} {t : Table Job} {Q : Int → Process nofile W → Prop}
    (h : p.opened + 1 ≤ nofile) (haccepts : Daemon.Accepts p.state t)
    (hsync : p.state.files.content (.file .jobsSync) ≠ []) :
    Exec.wp (loadJobsDaemon .quiet (polls + 1)) Q E p ↔
      Q 0 ⟨{ p.state with files := Daemon.loadFiles p.state.files, jobs := t },
        p.opened + 1, h⟩ := by
  rw [loadJobsDaemon, Exec.wp_bind, wp_awaitJobFree h haccepts.lock hsync, wp_open (by exact h)]
  simp only [Exec.wp_bind, Exec.wp_get, withFiles, FileStore.content_openCreate,
    haccepts.decodes, Exec.wp_ofExcept_ok, Proc.wp_onState, Exec.wp_modify, Exec.wp_pure]
  exact Iff.rfl

def dueCount (waitedTime : BitVec 64) (js : List Job) : Nat :=
  js.countP (Daemon.isDue waitedTime)

theorem dueCount_cons (waitedTime : BitVec 64) (j : Job) (js : List Job) :
    dueCount waitedTime (j :: js) =
      dueCount waitedTime js + if Daemon.isDue waitedTime j then 1 else 0 :=
  List.countP_cons

/-- With room for its pipes the loop over the jobs is the plain one. -/
theorem wp_runJobs (js : List Job) :
    ∀ p : Process nofile W, p.opened + dueCount p.state.waitedTime js + 1 ≤ nofile →
      Exec.wp (runJobs sys js)
        (fun r p' =>
          r.1 = ((Daemon.runJobs sys p.state.waitedTime js p.state.world).1,
            dueCount p.state.waitedTime js) ∧
          p'.state = { p.state with
            world := (Daemon.runJobs sys p.state.waitedTime js p.state.world).2 } ∧
          p'.opened = p.opened + dueCount p.state.waitedTime js)
        (fun _ _ => False) p := by
  induction js with
  | nil => exact fun p _ => (Exec.wp_pure _).mpr ⟨rfl, rfl, rfl⟩
  | cons j js ih =>
    intro p h
    rw [dueCount_cons] at h ⊢
    simp only [runJobs, runJob, Exec.wp_bind, Exec.wp_get, Daemon.runJobs]
    cases hdue : Daemon.isDue p.state.waitedTime j with
    | false =>
      have hskip : Daemon.runJob sys p.state.waitedTime j p.state.world = (j, p.state.world) := by
        simp [Daemon.runJob, hdue]
      simp only [if_true, Exec.wp_pure, hskip]
      refine Exec.wp_mono (ih p (by omega)) (fun r p' hr => ?_) fun _ _ he => he
      obtain ⟨hr, hstate, hopened⟩ := hr
      exact ⟨by simp [hr], by simpa using hstate, by simpa using hopened⟩
    | true =>
      simp only [hdue, if_true, Bool.true_eq_false, if_false, Exec.wp_bind, Proc.wp_take] at h ⊢
      refine ⟨fun hroom => ?_, fun hfull => by omega⟩
      simp only [Proc.wp_onState, Exec.wp_modify, Proc.wp_close_succ, Exec.wp_pure]
      refine Exec.wp_mono (ih _ (by simp only; omega)) (fun r p' hr => ?_) fun _ _ he => he
      obtain ⟨hr, hstate, hopened⟩ := hr
      exact ⟨by simp [hr, Nat.add_comm], hstate, by simp only [hopened]; omega⟩

/-- Without that room it ends with one descriptor left at most. -/
theorem wp_runJobs_full (js : List Job) :
    ∀ p : Process nofile W,
      nofile ≤ p.opened + 1 ∨ nofile ≤ p.opened + dueCount p.state.waitedTime js →
      Exec.wp (runJobs sys js)
        (fun _ p' => p'.state.files = p.state.files ∧ nofile ≤ p'.opened + 1)
        (fun _ _ => False) p := by
  induction js with
  | nil => exact fun p h => (Exec.wp_pure _).mpr ⟨rfl, by simp [dueCount] at h; omega⟩
  | cons j js ih =>
    intro p h
    rw [dueCount_cons] at h
    simp only [runJobs, runJob, Exec.wp_bind, Exec.wp_get]
    cases hdue : Daemon.isDue p.state.waitedTime j with
    | false =>
      simp only [hdue, if_true, Bool.false_eq_true, if_false, Exec.wp_pure] at h ⊢
      exact Exec.wp_mono (ih p h) (fun _ _ hr => hr) fun _ _ he => he
    | true =>
      simp only [hdue, if_true, Bool.true_eq_false, if_false, Exec.wp_bind, Proc.wp_take] at h ⊢
      refine ⟨fun hroom => ?_, fun hfull => ?_⟩
      · simp only [Proc.wp_onState, Exec.wp_modify, Proc.wp_close_succ, Exec.wp_pure]
        exact Exec.wp_mono (ih _ (.inr (by simp only; omega))) (fun _ _ hr => hr)
          fun _ _ he => he
      · simp only [Exec.wp_pure]
        exact Exec.wp_mono (ih p (.inl (by omega))) (fun _ _ hr => hr) fun _ _ he => he

def ran (sys : DaemonCalls W) (d : Daemon W) : Daemon W :=
  { d with
    world := (Daemon.runJobs sys d.waitedTime d.jobs.items d.world).2
    jobs := Daemon.ranTable sys d d.jobs }

theorem wp_runDue (h : p.opened + dueCount p.state.waitedTime p.state.jobs.items + 1 ≤ nofile) :
    Exec.wp (runDue sys)
      (fun started p' => started = dueCount p.state.waitedTime p.state.jobs.items ∧
        p'.state = ran sys p.state ∧
        p'.opened = p.opened + dueCount p.state.waitedTime p.state.jobs.items)
      (fun _ _ => False) p := by
  rw [runDue, Exec.wp_bind, Exec.wp_get, Exec.wp_bind]
  refine Exec.wp_mono (wp_runJobs p.state.jobs.items p h) ?_ fun _ _ he => he
  rintro ⟨⟨js, started⟩, hlen⟩ p' ⟨hr, hstate, hopened⟩
  cases hr
  simp only [Exec.wp_bind, Proc.wp_onState, Exec.wp_modify, Exec.wp_pure]
  exact ⟨trivial, by rw [hstate]; rfl, hopened⟩

/-- With or without room: each due job takes a descriptor, or one is left at most. -/
theorem wp_runDue_least :
    Exec.wp (runDue sys)
      (fun _ p' => p'.state.files = p.state.files ∧
        p'.state.jobs.items.length = p.state.jobs.items.length ∧
        (p'.opened = p.opened + dueCount p.state.waitedTime p.state.jobs.items ∨
          nofile ≤ p'.opened + 1))
      (fun _ _ => False) p := by
  by_cases h : p.opened + dueCount p.state.waitedTime p.state.jobs.items + 1 ≤ nofile
  · refine Exec.wp_mono (wp_runDue h) (fun started p' h' => ?_) fun _ _ he => he
    obtain ⟨-, hstate, hopened⟩ := h'
    refine ⟨by rw [hstate]; rfl, ?_, .inl hopened⟩
    rw [hstate]
    exact Daemon.length_runJobs sys _ _ _
  · rw [runDue, Exec.wp_bind, Exec.wp_get, Exec.wp_bind]
    refine Exec.wp_mono (wp_runJobs_full p.state.jobs.items p (.inr (by omega))) ?_
      fun _ _ he => he
    rintro ⟨r, hlen⟩ p' ⟨hfiles, hopened⟩
    simp only [Exec.wp_bind, Proc.wp_onState, Exec.wp_modify, Exec.wp_pure]
    exact ⟨hfiles, hlen, .inr hopened⟩

theorem wp_doBackup_least {src dest : Path} (hsrc : p.state.files.content src ≠ []) :
    Exec.wp (doBackup .quiet src dest) (fun _ _ => p.opened + 2 ≤ nofile) (fun _ _ => True) p := by
  by_cases h : p.opened + 1 ≤ nofile
  · rw [doBackup, wp_open h]
    simp only [Exec.wp_bind, wp_content, FileStore.content_openCreate, hsrc, if_false]
    by_cases h' : p.opened + 2 ≤ nofile
    · simp only [h']
      exact Exec.wp_of_forall (fun _ _ => Exec.wp_true) fun _ _ => trivial
    · rw [copyBackup, wp_open_full (by simp only; omega), Exec.wp_throw]
      trivial
  · rw [doBackup, wp_open_full (by omega), Exec.wp_throw]
    trivial

/-- A save that finds no descriptor for the jobs file changes nothing; any other that
returns had one for the jobs file and two for the backup. -/
theorem wp_writeData_least {n polls : Nat} {data : Bytes} (hn : n ≠ 0)
    (hjobs : p.state.files.content (.file .jobs) ≠ []) :
    Exec.wp (writeData .quiet n polls data)
      (fun rc p' => p.opened + 3 ≤ nofile ∨ rc ≠ 0 ∧ p' = p) (fun _ _ => True) p := by
  by_cases h : p.opened + 1 ≤ nofile
  · rw [writeData, wp_open h]
    simp only [createBackupForJobs, hn, if_false, Exec.wp_bind]
    refine Exec.wp_mono (wp_doBackup_least (by simpa using hjobs)) (fun rc p' h' => ?_)
      fun _ _ h => h
    have hroom : p.opened + 3 ≤ nofile := h'
    simp only [hroom, true_or]
    exact Exec.wp_of_forall (fun _ _ => Exec.wp_true) fun _ _ => trivial
  · rw [writeData, wp_open_full (by omega), Exec.wp_pure]
    exact .inr ⟨by decide, rfl⟩

/-- However often it is tried, a save needs three descriptors. -/
theorem wp_save_least {n polls : Nat} (hn : n ≠ 0) (hitems : p.state.jobs.items ≠ [])
    (hjobs : p.state.files.content (.file .jobs) ≠ []) (attempts : Nat) :
    Exec.wp (save .quiet n polls attempts) (fun _ _ => p.opened + 3 ≤ nofile)
      (fun _ _ => True) p := by
  have hnull : ¬(n = 0 ∨ p.state.jobs.isNull = true) := by
    simp [hn, Table.isNull_eq_false hitems]
  induction attempts with
  | zero => exact (Exec.wp_throw _).mpr trivial
  | succ attempts ih =>
    simp only [save, Exec.wp_bind, Exec.wp_get, saveJobsDaemon, hnull, if_false, hitems]
    refine Exec.wp_mono (wp_writeData_least hn hjobs) ?_ fun _ _ h => h
    rintro rc p' (hroom | ⟨hrc, rfl⟩)
    · simp only [hroom]
      exact Exec.wp_of_forall (fun _ _ => Exec.wp_true) fun _ _ => trivial
    · simp only [ne_eq, hrc, not_false_eq_true, if_true, Exec.wp_pure]
      simpa using ih

/-! ### Rounds of a daemon left alone -/

/-- A daemon that serves the jobs `l`, with a lock file that a save has written. -/
structure Steady (l : List Job) (d : Daemon W) : Prop where
  serves : Daemon.Serves l d
  sync : d.files.content (.file .jobsSync) ≠ []

theorem dueCount_congr {waitedTime : BitVec 64} {l l' : List Job}
    (h : l'.map Daemon.identity = l.map Daemon.identity) :
    dueCount waitedTime l' = dueCount waitedTime l := by
  have hcount : ∀ js : List Job, dueCount waitedTime js =
      (js.map Daemon.identity).countP fun x => waitedTime % x.2.2 == 0 := fun js => by
    rw [List.countP_map]
    rfl
  rw [hcount, hcount, h]

theorem content_ne_nil {d : Daemon W} {t : Table Job} (h : Daemon.Accepts d t)
    (hfresh : Daemon.Fresh d) (ht : t.items ≠ []) : d.files.content (.file .jobs) ≠ [] := by
  intro hnil
  have hload := loadJobsDaemon_eq_ok.mp h.decodes
  rw [hnil] at hload
  cases hload
  exact ht hfresh.items

/-- The save that ends a round, in the files the load leaves. -/
theorem exists_saved (sys : DaemonCalls W) (n : Nat) {d : Daemon W} {t : Table Job}
    (h : Daemon.Accepts d t) (ht : t.items ≠ []) :
    ∃ fs, (writeJobsData n (jobsText (Daemon.ranTable sys d t).items)).run
        (Daemon.loadFiles d.files) = .ok 0 fs ∧
      fs.content (.file .jobsSync) = freeText := by
  have hitems : (Daemon.ranTable sys d t).items ≠ [] := Daemon.ranTable_eq_nil.not.mpr ht
  have hfree : LockFree (Daemon.loadFiles d.files) :=
    (LockFree.congr (Daemon.content_loadFiles _ _)).mpr h.lock
  have hspec := wp_writeJobsData (jobsText_ne_nil hitems) n (Daemon.loadFiles d.files)
  cases hrun : (writeJobsData n (jobsText (Daemon.ranTable sys d t).items)).run
      (Daemon.loadFiles d.files) with
  | ok rc fs =>
    obtain ⟨rfl, -, -, hsync, -⟩ := Exec.wp_run_ok hspec hrun
    exact ⟨fs, rfl, hsync⟩
  | error e fs => exact absurd hfree (Exec.wp_run_error hspec hrun).2

/-- What the plain cycle leaves behind that save. -/
theorem run_cycle {n attempts : Nat} (hn : n ≠ 0) {d : Daemon W} {t : Table Job} {fs : Files}
    (h : Daemon.Accepts d t) (ht : t.items ≠ [])
    (hrun : (writeJobsData n (jobsText (Daemon.ranTable sys d t).items)).run
      (Daemon.loadFiles d.files) = .ok 0 fs) :
    (Daemon.cycle sys n attempts).run d =
      .ok true
        { files := fs
          world := (Daemon.runJobs sys d.waitedTime t.items d.world).2
          jobs := .blank 0 initialScaleSizeOfJobs
          waitedTime := d.waitedTime + 1 } := by
  have hitems : (Daemon.ranTable sys d t).items ≠ [] := Daemon.ranTable_eq_nil.not.mpr ht
  have hnull : ¬(n = 0 ∨ (Daemon.ranTable sys d t).isNull = true) := by
    simp [hn, Table.isNull_eq_false hitems]
  refine Exec.run_of_wp ?_
  simp only [Daemon.cycle, Daemon.load, Daemon.runDue, Daemon.renewJobs, Daemon.save,
    Exec.wp_bind, Daemon.wp_onFiles, MiniRunner.wp_isJobFree, h.lock, Bool.true_eq_false, if_false,
    Exec.wp_modify, Exec.wp_get, FileStore.content_openCreate, h.decodes, Exec.wp_ofExcept_ok,
    Exec.wp_set, Exec.wp_pure, ne_eq, not_true_eq_false, MiniRunner.saveJobsDaemon, saveJobsWith]
  rw [← Daemon.ranTable, ← Daemon.loadFiles, if_neg hnull, if_neg hitems, Exec.wp_bind,
    Exec.wp_of_run hrun]
  simp only [not_true_eq_false, if_false, Exec.wp_pure, and_self]

/-- **A round with room**: the plain cycle, at the price of a descriptor for the load and one
for each due job. -/
theorem wp_cycle_room (sys : DaemonCalls W) (polls attempts : Nat) {l : List Job} {n : Nat}
    (hn : n ≠ 0) (hl : l ≠ [])
    (hsteady : Steady l p.state)
    (h : p.opened + dueCount p.state.waitedTime l + 4 ≤ nofile) :
    Exec.wp (cycle sys .quiet n (polls + 1) attempts)
      (fun r p' => r = some (dueCount p.state.waitedTime l) ∧
        p'.opened = p.opened + 1 + dueCount p.state.waitedTime l ∧
        p'.state.files.content (.file .jobsSync) ≠ [] ∧
        p'.state.waitedTime = p.state.waitedTime + 1 ∧
        (Daemon.cycle sys n attempts).run p.state = .ok true p'.state)
      (fun _ _ => False) p := by
  obtain ⟨hfresh, t, haccepts, hsame⟩ := hsteady.serves
  have ht : t.items ≠ [] := fun ht => hl (List.map_eq_nil_iff.mp (by rw [← hsame, ht]; rfl))
  rw [← dueCount_congr hsame] at h ⊢
  obtain ⟨fs, hrun, hfree⟩ := exists_saved sys n haccepts ht
  have hcontent := Daemon.content_loadFiles p.state.files
  rw [cycle, Exec.wp_bind, wp_loadJobsDaemon (by omega) haccepts hsteady.sync, if_neg (by decide),
    Exec.wp_bind]
  refine Exec.wp_mono (wp_runDue (by simp only; omega)) ?_ fun _ _ he => he
  rintro started q ⟨rfl, hstate, hopened⟩
  have hfiles : q.state.files = Daemon.loadFiles p.state.files := by rw [hstate]; rfl
  have hjobs : q.state.jobs = Daemon.ranTable sys p.state t := by rw [hstate]; rfl
  have hsaved : (writeJobsData n (jobsText q.state.jobs.items)).run q.state.files = .ok 0 fs := by
    rw [hfiles, hjobs]
    exact hrun
  rw [Exec.wp_bind, wp_save (by simp only [hopened]; omega) hn
    (by rw [hjobs]; exact Daemon.ranTable_eq_nil.not.mpr ht)
    (by rw [hfiles, hcontent]; exact content_ne_nil haccepts hfresh ht)
    (by rw [hfiles]; exact (LockFree.congr (hcontent _)).mpr haccepts.lock)
    (by rw [hfiles, hcontent]; exact hsteady.sync) hsaved]
  simp only [Exec.wp_bind, Proc.wp_onState, Daemon.renewJobs, Exec.wp_modify, Exec.wp_pure]
  refine ⟨trivial, hopened, by simp [withFiles, hfree, freeText],
    by rw [withFiles, hstate]; rfl, ?_⟩
  rw [run_cycle hn haccepts ht hrun, withFiles, hstate]
  rfl

/-- A round that a process with fewer descriptors left does not finish. -/
theorem wp_cycle_full (sys : DaemonCalls W) (polls attempts : Nat) {l : List Job} {n : Nat}
    (hn : n ≠ 0) (hl : l ≠ [])
    (hsteady : Steady l p.state)
    (h : nofile < p.opened + dueCount p.state.waitedTime l + 4) :
    Exec.wp (cycle sys .quiet n (polls + 1) attempts) (fun _ _ => False) (fun _ _ => True) p := by
  obtain ⟨hfresh, t, haccepts, hsame⟩ := hsteady.serves
  have ht : t.items ≠ [] := fun ht => hl (List.map_eq_nil_iff.mp (by rw [← hsame, ht]; rfl))
  rw [← dueCount_congr hsame] at h
  rw [cycle, Exec.wp_bind]
  by_cases hroom : p.opened + 1 ≤ nofile
  · rw [wp_loadJobsDaemon hroom haccepts hsteady.sync, if_neg (by decide), Exec.wp_bind]
    refine Exec.wp_mono wp_runDue_least ?_ fun _ _ he => he.elim
    rintro started q ⟨hfiles, hlen, hopened⟩
    have hitems : q.state.jobs.items ≠ [] := fun hnil =>
      ht (List.length_eq_zero_iff.mp (by rw [← hlen, hnil]; rfl))
    have hjobs : q.state.files.content (.file .jobs) ≠ [] := by
      rw [hfiles, Daemon.content_loadFiles]
      exact content_ne_nil haccepts hfresh ht
    rw [Exec.wp_bind]
    refine Exec.wp_mono (wp_save_least hn hitems hjobs _) (fun _ _ hleft => ?_) fun _ _ _ => trivial
    simp only at hopened
    omega
  · -- the lock is taken for free, but the jobs file cannot be opened
    rw [loadJobsDaemon, Exec.wp_bind, awaitJobFree, Exec.wp_bind, isJobFree,
      wp_open_full (by omega), Exec.wp_pure, if_neg (by decide), Exec.wp_pure,
      wp_open_full (by omega), Exec.wp_throw]
    trivial

/-- The due jobs of some rounds, one by one. -/
def dueTotal (l : List Job) : BitVec 64 → Nat → Nat
  | _, 0 => 0
  | waitedTime, k + 1 => dueCount waitedTime l + dueTotal l (waitedTime + 1) k

theorem run_cycles_succ {n attempts k : Nat} {d d' : Daemon W} {ran : Bool}
    (h : (Daemon.cycle sys n attempts).run d = .ok ran d') :
    (Daemon.cycles sys n attempts (k + 1)).run d = (Daemon.cycles sys n attempts k).run d' := by
  simp only [Daemon.cycles, EStateM.run, bind, EStateM.bind] at h ⊢
  rw [h]

/-- **How long the daemon lasts**: left alone with the jobs `l`, it finishes `k` rounds if and
only if its descriptors last for them, one for each round and one for each job start, with
three more for the save of the last round. What it does in them is what the plain rounds do. -/
theorem rounds_return_iff (sys : DaemonCalls W) {l : List Job} {n polls attempts : Nat}
    (hn : n ≠ 0) (hl : l ≠ []) (k : Nat) (p : Process nofile W) (hsteady : Steady l p.state) :
    Exec.wp (rounds sys .quiet n (polls + 1) attempts k)
      (fun started p' => started = dueTotal l p.state.waitedTime k ∧
        p'.opened = p.opened + k + started ∧
        (Daemon.cycles sys n attempts k).run p.state = .ok () p'.state)
      (fun _ _ => False) p ↔
    (0 < k → p.opened + k + dueTotal l p.state.waitedTime k + 3 ≤ nofile) := by
  induction k generalizing p with
  | zero =>
    rw [rounds, Exec.wp_pure]
    simp [dueTotal, Daemon.cycles, EStateM.run, pure, EStateM.pure]
  | succ k ih =>
    rw [rounds, Exec.wp_bind]
    by_cases h : p.opened + dueCount p.state.waitedTime l + 4 ≤ nofile
    · have hcycle := wp_cycle_room sys polls attempts hn hl hsteady h
      cases hrun : (cycle sys .quiet n (polls + 1) attempts).run p with
      | error e q => exact (Exec.wp_run_error hcycle hrun).elim
      | ok r q =>
        obtain ⟨rfl, hopened, hsync, hwaited, hplain⟩ := Exec.wp_run_ok hcycle hrun
        have hserves : Exec.wp (Daemon.cycle sys n attempts) (fun _ d' => Daemon.Serves l d')
            (fun _ _ => False) p.state :=
          Daemon.wp_cycle_serves (iff_of_false hn hl) hsteady.serves
        have hserved := Exec.wp_run_ok hserves hplain
        have hsteady' : Steady l q.state := ⟨hserved, hsync⟩
        have hpost : ∀ (started : Nat) (p' : Process nofile W),
            (dueCount p.state.waitedTime l + started = dueTotal l p.state.waitedTime (k + 1) ∧
              p'.opened = p.opened + (k + 1) + (dueCount p.state.waitedTime l + started) ∧
              (Daemon.cycles sys n attempts (k + 1)).run p.state = .ok () p'.state) ↔
            (started = dueTotal l q.state.waitedTime k ∧ p'.opened = q.opened + k + started ∧
              (Daemon.cycles sys n attempts k).run q.state = .ok () p'.state) := by
          intro started p'
          rw [run_cycles_succ hplain, dueTotal, hwaited, hopened, Nat.add_left_cancel_iff]
          refine and_congr_right fun _ => and_congr_left fun _ => ?_
          constructor <;> intro hp <;> omega
        rw [Exec.wp_of_run hrun, Exec.wp_bind]
        simp only [Exec.wp_pure, Option.getD_some, hpost]
        rw [ih q hsteady', hwaited, hopened, dueTotal]
        constructor
        · intro hk _
          rcases Nat.eq_zero_or_pos k with rfl | hpos
          · simp only [dueTotal]
            omega
          · have := hk hpos
            omega
        · intro hk _
          have := hk (Nat.succ_pos k)
          omega
    · refine iff_of_false (fun hwp => ?_) fun hk => ?_
      · have hfull := wp_cycle_full sys polls attempts hn hl hsteady (by omega)
        exact Exec.not_wp_false
          (Exec.wp_mono (Exec.wp_and hwp hfull) (fun _ _ h => h.2) fun _ _ h => h.1)
      · have := hk (Nat.succ_pos k)
        rw [dueTotal] at this
        omega

/-- A daemon with one job, and 1020 of 1024 descriptors left. -/
def steadyProcess : Process 1024 Unit where
  state :=
    { Daemon.earlyDaemon with
      files := Daemon.earlyDaemon.files.put (.file .jobsSync) freeText }
  opened := 4
  le := by decide

theorem steadyProcess_steady : Steady [Daemon.oneJob] steadyProcess.state := by
  obtain ⟨t, haccepts, hitems⟩ := Daemon.earlyDaemon_accepts
  have hsync : steadyProcess.state.files.content (.file .jobsSync) = freeText :=
    FileStore.content_put _ _ _
  refine ⟨⟨⟨rfl, Table.honest_alloc _, rfl⟩, t, ⟨?_, ?_⟩, by rw [hitems]⟩, ?_⟩
  · rw [hsync]
    exact readsFree_freeText
  · exact haccepts.decodes
  · rw [hsync]
    decide

theorem rounds_return_iff_steadyProcess :
    Exec.wp (rounds Daemon.idleCalls .quiet 1 1 0 2)
      (fun started p' => started = dueTotal [Daemon.oneJob] steadyProcess.state.waitedTime 2 ∧
        p'.opened = steadyProcess.opened + 2 + started ∧
        (Daemon.cycles Daemon.idleCalls 1 0 2).run steadyProcess.state = .ok () p'.state)
      (fun _ _ => False) steadyProcess ↔
    (0 < 2 → steadyProcess.opened + 2 +
      dueTotal [Daemon.oneJob] steadyProcess.state.waitedTime 2 + 3 ≤ 1024) :=
  rounds_return_iff Daemon.idleCalls (by decide) (by decide) 2 steadyProcess steadyProcess_steady

end room

end MiniRunner.Descriptors
