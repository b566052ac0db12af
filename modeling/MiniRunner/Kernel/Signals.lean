import MiniRunner.Clib.Runs
import MiniRunner.Ops.Launch

/-!
# The targets of kill

Every `kill` of `stopJobDaemon`, `killJob`, `stopService`, `killService` and
`normalDeleteServices`. A recorded pid is positive or 0, and a pid that is 0 is tested
before it is used, so each target is one process. The pid of the daemon is the exception:
`getDaemonPid` returns its failures as the pid -1, and -1 is every process there is.
-/

namespace MiniRunner

open Clib Process

variable {W : Type}

/-! ## Logging the targets -/

/-- The world with the targets of `kill` so far. -/
structure Watched (W : Type) where
  rest : W
  targets : List (BitVec 32)

namespace Watched

def aside {α : Type} (f : W → α × W) (w : Watched W) : α × Watched W :=
  ((f w.rest).1, { w with rest := (f w.rest).2 })

/-- The calls of `base`, with the targets of `kill` logged. -/
def calls (base : Calls W) : Calls (Watched W) where
  clone githubRepo name := aside (base.clone githubRepo name)
  folderExists name := aside (base.folderExists name)
  deleteFolderRecursievly name := aside (base.deleteFolderRecursievly name)
  renameFolder beforeName newName := aside (base.renameFolder beforeName newName)
  kill sig pid w :=
    ((base.kill sig pid w.rest).1, ⟨(base.kill sig pid w.rest).2, w.targets ++ [pid]⟩)
  updateCgrp name := aside (base.updateCgrp name)
  updateCgroup name pid := aside (base.updateCgroup name pid)
  renameCgrp name newName pid := aside (base.renameCgrp name newName pid)
  createThread := aside base.createThread
  detachThread := aside base.detachThread
  launch params := aside (base.launch params)
  lag := aside base.lag
  interruptLast pauses := aside (base.interruptLast pauses)
  limitCpuAndMemory name pid cpu limitMemory memBytes :=
    aside (base.limitCpuAndMemory name pid cpu limitMemory memBytes)
  limitMm name pid memBytes := aside (base.limitMm name pid memBytes)
  fileExists name := aside (base.fileExists name)
  time := aside base.time

end Watched

/-! ## The daemon pid file -/

inductive PidFileRead where
  | openFails | fstatFails | readFails | reads
  deriving DecidableEq, Repr

/-- The bytes of `pidBuff` that are read. -/
def pidBuffSize : Nat := 39

/-- The -1 of `getDaemonPid`, which returns an unsigned number. -/
def noDaemonPid : BitVec 32 := -1

/-- `getDaemonPid`. A failed read terminates the buffer before its start. -/
def getDaemonPid (io : PidFileRead) : Exec (Process W) (BitVec 32) :=
  if io = .openFails then pure noDaemonPid
  else do
    onFiles (modify (·.openCreate (.file .jobDaemonPid)))
    let p ← get
    if io = .fstatFails then pure noDaemonPid
    else if io = .readFails then throw .undefined
    else pure (atoi (.ofBytes ((p.files.content (.file .jobDaemonPid)).take pidBuffSize)))

def openedPidFile (p : Process W) : Process W :=
  { p with files := p.files.openCreate (.file .jobDaemonPid) }

theorem wp_getDaemonPid {io : PidFileRead} {Q : BitVec 32 → Process W → Prop}
    {E : Halt → Process W → Prop} {p : Process W} :
    Exec.wp (getDaemonPid io) Q E p ↔
      match io with
      | .openFails => Q noDaemonPid p
      | .fstatFails => Q noDaemonPid (openedPidFile p)
      | .readFails => E .undefined (openedPidFile p)
      | .reads => Q (atoi (.ofBytes ((p.files.content (.file .jobDaemonPid)).take pidBuffSize)))
          (openedPidFile p) := by
  cases io <;> simp [getDaemonPid, openedPidFile]

/-- `setPid` of the daemon; `fails` is a call in it that fails before the file is written. -/
def setDaemonPid (fails : Bool) (pid : BitVec 32) : Exec (Process W) Int := do
  onFiles (modify (·.openCreate (.file .jobDaemonPid)))
  if fails then pure (-1)
  else if (← onFiles (doBackup (.file .jobDaemonPid) (.fileCopy .jobDaemonPid))) ≠ 0 then
    pure (-1)
  else
    onFiles (modify (·.rewrite (.file .jobDaemonPid) (fmtInt32 pid).bytes))
    pure 0

/-! ## Stopping the daemon -/

section stop

variable (sys : Calls W)

/-- `killJob`, whose result is not used. -/
def killJob (pid : BitVec 32) : Exec (Process W) Int := killProcess sys pid

def killJobs : List Job → Exec (Process W) Unit
  | [] => pure ()
  | currentJob :: jobs =>
    if currentJob.pid = 0 then killJobs jobs
    else do
      let _ ← killJob sys currentJob.pid
      killJobs jobs

def clearPids (jobs : Table Job) : Table Job :=
  jobs.mapItems (·.map fun j => { j with pid := 0 }) (List.length_map _)

/-- `stopJobDaemon` from the pid that it has read. -/
def stopDaemonOf (setFails : Bool) (pid : BitVec 32) : Exec (Process W) Int := do
  if pid = 0 then pure (-1)
  else if (← call (sys.kill .sigkill pid)) ≠ 0 then pure (-1)
  else if (← setDaemonPid setFails 0) ≠ 0 then pure (-1)
  else
    let p ← get
    killJobs sys p.jobs.items
    modify fun p => { p with jobs := clearPids p.jobs }
    pure 0

def stopJobDaemon (io : PidFileRead) (setFails : Bool) : Exec (Process W) Int := do
  let pid ← getDaemonPid io
  stopDaemonOf sys setFails pid

end stop

/-! ## Recorded pids -/

/-- A pid that mrn records: that of a process, or 0. -/
def IsRecorded (pid : BitVec 32) : Prop := 0 ≤ pid.toInt

instance (pid : BitVec 32) : Decidable (IsRecorded pid) := inferInstanceAs (Decidable (_ ≤ _))

theorem isRecorded_zero : IsRecorded 0 := le_refl (0 : Int)

theorem IsRecorded.pos {pid : BitVec 32} (h : IsRecorded pid) (hne : pid ≠ 0) :
    0 < pid.toInt :=
  lt_of_le_of_ne h fun hzero => hne (BitVec.toInt_inj.mp hzero.symm)

def DaemonRecorded (fs : Files) : Prop :=
  fs.content (.file .jobDaemonPid) = [] ∨
    ∃ pid, IsRecorded pid ∧ fs.content (.file .jobDaemonPid) = (fmtInt32 pid).bytes

structure PidsRecorded (p : Process W) : Prop where
  services : ∀ s ∈ p.services.items, IsRecorded s.pid
  jobs : ∀ j ∈ p.jobs.items, IsRecorded j.pid
  daemon : DaemonRecorded p.files

def OneEach (p : Process (Watched W)) : Prop := ∀ pid ∈ p.world.targets, 0 < pid.toInt

def Sound (p : Process (Watched W)) : Prop := PidsRecorded p ∧ OneEach p

/-! ## What keeps them -/

section keeps

variable {base : Calls W} {p : Process (Watched W)} {α : Type}

theorem Sound.withWorld (h : Sound p) {w : Watched W} (hw : ∀ pid ∈ w.targets, 0 < pid.toInt) :
    Sound { p with world := w } := ⟨⟨h.1.services, h.1.jobs, h.1.daemon⟩, hw⟩

theorem keeps_aside (f : W → α × W) :
    Exec.Keeps Sound (call (Watched.aside f) : Exec (Process (Watched W)) α) := fun _ h =>
  wp_call.mpr (h.withWorld h.2)

theorem keeps_kill {pid : BitVec 32} (hpid : 0 < pid.toInt) (sig : Signal) :
    Exec.Keeps Sound (call ((Watched.calls base).kill sig pid)) := fun p h =>
  wp_call.mpr <| h.withWorld fun t ht => by
    rcases List.mem_append.mp ht with ht | ht
    · exact h.2 t ht
    · rw [List.mem_singleton.mp ht]
      exact hpid

theorem keeps_killProcess {pid : BitVec 32} (hpid : 0 < pid.toInt) :
    Exec.Keeps Sound (killProcess (Watched.calls base) pid) :=
  .bind (keeps_kill hpid _) fun _ => .ite (fun _ => .pure _) fun _ =>
    .bind (keeps_kill hpid _) fun _ => .ite (fun _ => .pure _) fun _ => .pure _

theorem keeps_killService {pid : BitVec 32} (hpid : IsRecorded pid) :
    Exec.Keeps Sound (killService (Watched.calls base) pid) :=
  .ite (fun _ => .pure _) fun hne => keeps_killProcess (hpid.pos hne)

theorem keeps_onFiles {x : Exec Files α} (hx : Exec.Keeps DaemonRecorded x) :
    Exec.Keeps Sound (onFiles x : Exec (Process (Watched W)) α) := fun p h => by
  rw [wp_onFiles]
  refine Exec.wp_mono (hx p.files h.1.daemon) (fun _ fs' hfs' => ?_) fun _ fs' hfs' => ?_
  · exact ⟨⟨h.1.services, h.1.jobs, hfs'⟩, h.2⟩
  · exact ⟨⟨h.1.services, h.1.jobs, hfs'⟩, h.2⟩

theorem keeps_openCreate (q : Path) :
    Exec.Keeps DaemonRecorded (modify (·.openCreate q) : Exec Files PUnit) :=
  .modify fun fs h => by rwa [DaemonRecorded, FileStore.content_openCreate]

theorem keeps_setDaemonPid (fails : Bool) {pid : BitVec 32} (hpid : IsRecorded pid) :
    Exec.Keeps Sound (setDaemonPid fails pid : Exec (Process (Watched W)) Int) := by
  have hbackup : Exec.Keeps DaemonRecorded
      (doBackup (.file .jobDaemonPid) (.fileCopy .jobDaemonPid)) := fun fs h => by
    rw [wp_doBackup, DaemonRecorded, content_doBackupFiles, if_neg (by simp)]
    exact h
  have hwrite : Exec.Keeps DaemonRecorded
      (modify (·.rewrite (.file .jobDaemonPid) (fmtInt32 pid).bytes) : Exec Files PUnit) :=
    .modify fun fs _ => .inr ⟨pid, hpid, by rw [FileStore.content_rewrite, if_pos rfl]⟩
  exact .bind (keeps_onFiles (keeps_openCreate _)) fun _ => .ite (fun _ => .pure _) fun _ =>
    .bind (keeps_onFiles hbackup) fun _ => .ite (fun _ => .pure _) fun _ =>
      .bind (keeps_onFiles hwrite) fun _ => .pure _

theorem keeps_services {f : Table Service → Except Halt (α × Table Service)}
    (hf : ∀ t a t', f t = .ok (a, t') → (∀ s ∈ t.items, IsRecorded s.pid) →
      ∀ s ∈ t'.items, IsRecorded s.pid) :
    Exec.Keeps Sound (onServices f : Exec (Process (Watched W)) α) := fun p h => by
  rw [wp_onServices]
  cases hres : f p.services with
  | ok r => exact ⟨⟨hf _ _ _ hres h.1.services, h.1.jobs, h.1.daemon⟩, h.2⟩
  | error e => exact h

theorem keeps_limits (f : Table Limit → Except Halt (α × Table Limit)) :
    Exec.Keeps Sound (onLimits f : Exec (Process (Watched W)) α) := fun p h => by
  rw [wp_onLimits]
  cases f p.limits with
  | ok r => exact ⟨⟨h.1.services, h.1.jobs, h.1.daemon⟩, h.2⟩
  | error e => exact h

theorem keeps_findService {name : CStr} {f : Option Service → Exec (Process (Watched W)) α}
    (hf : ∀ o, (∀ s ∈ o, IsRecorded s.pid) → Exec.Keeps Sound (f o)) :
    Exec.Keeps Sound (findService name >>= f) := fun p h => by
  rw [Exec.wp_bind, wp_findService]
  exact hf _ (fun s hs => h.1.services s (List.mem_of_find?_eq_some hs)) p h

theorem keeps_findSlot (name : CStr) :
    Exec.Keeps Sound (findSlot name : Exec (Process (Watched W)) _) := fun _ h =>
  wp_findSlot.mpr h

theorem isRecorded_slot (h : PidsRecorded p) (i : Nat) :
    IsRecorded ((p.services.items[i]?.map (·.pid)).getD 0) := by
  cases hslot : p.services.items[i]? with
  | none => exact isRecorded_zero
  | some s => exact h.services s (List.mem_of_getElem? hslot)

theorem keeps_setPid (i : Nat) {pid : BitVec 32} (hpid : IsRecorded pid) :
    Exec.Keeps Sound (setPid i pid : Exec (Process (Watched W)) Unit) := fun _ h =>
  Exec.wp_total.mpr ⟨⟨Table.forall_modify (P := fun s : Service => IsRecorded s.pid)
    (fun _ _ => hpid) h.1.services i, h.1.jobs, h.1.daemon⟩, h.2⟩

theorem keeps_updateService (name : CStr) {f : Service → Service}
    (hf : ∀ s, IsRecorded s.pid → IsRecorded (f s).pid) :
    Exec.Keeps Sound (updateService name f : Exec (Process (Watched W)) Unit) := fun _ h =>
  wp_updateService.mpr ⟨⟨Table.forall_updateFirst (P := fun s : Service => IsRecorded s.pid)
    (fun s _ => hf s) h.1.services, h.1.jobs, h.1.daemon⟩, h.2⟩

theorem keeps_jobs {f : Table Job → Except Halt (α × Table Job)}
    (hf : ∀ t a t', f t = .ok (a, t') → (∀ j ∈ t.items, IsRecorded j.pid) →
      ∀ j ∈ t'.items, IsRecorded j.pid) :
    Exec.Keeps Sound (onJobs f : Exec (Process (Watched W)) α) := fun p h => by
  rw [wp_onJobs]
  cases hres : f p.jobs with
  | ok r => exact ⟨⟨h.1.services, hf _ _ _ hres h.1.jobs, h.1.daemon⟩, h.2⟩
  | error e => exact h

/-! ## The operations -/

theorem keeps_addProject (githubRepo nickName : CStr) :
    Exec.Keeps Sound (addProject (Watched.calls base) githubRepo nickName) := by
  have hmark : Exec.Keeps Sound (modify fun p => { p with
      services := p.services.mapItems markCloned (by simp [markCloned]) } :
      Exec (Process (Watched W)) PUnit) :=
    .modify fun p h => ⟨⟨Table.forall_modify (P := fun s : Service => IsRecorded s.pid)
      (f := fun s => { s with cloned := true }) (fun _ hs => hs) h.1.services _, h.1.jobs,
      h.1.daemon⟩, h.2⟩
  refine .bind (keeps_services fun t rc t' ht hrec => ?_) fun _ => .ite (fun _ => .pure _)
    fun _ => .bind (keeps_aside _) fun cloned => ?_
  · exact Table.forall_insert (P := fun s : Service => IsRecorded s.pid) ht isRecorded_zero hrec
  · cases cloned with
    | gaveUp => exact .throw _
    | failed => exact .pure _
    | done => exact .bind hmark fun _ => .pure _

theorem keeps_renameService (serviceName newName : CStr) :
    Exec.Keeps Sound (renameService (Watched.calls base) serviceName newName) := by
  refine .get_bind fun p _ => .ite (fun _ => .pure _) fun _ => keeps_findService fun o _ => ?_
  cases o with
  | none => exact .pure _
  | some s =>
    refine .bind (keeps_aside _) fun _ => .ite (fun _ => .pure _) fun _ =>
      .bind (keeps_aside _) fun _ => .ite (fun _ => ?_) fun _ => ?_
    · exact .bind (keeps_aside _) fun _ => .pure _
    · refine .bind (keeps_limits _) fun _ => .ite (fun _ => ?_) fun _ => ?_
      · exact .bind (keeps_aside _) fun _ => .ite
          (fun _ => .bind (keeps_aside _) fun _ => .pure _) fun _ => .pure _
      · exact keeps_updateService _ fun _ hs => hs

theorem keeps_stopService (serviceName : CStr) :
    Exec.Keeps Sound (stopService (Watched.calls base) serviceName) := by
  refine keeps_findService fun o ho => ?_
  cases o with
  | none => exact .pure _
  | some s =>
    refine .ite (fun _ => .pure _) fun hne => ?_
    refine .bind (keeps_killProcess ((ho s rfl).pos hne)) fun _ =>
      .ite (fun _ => .pure _) fun _ => ?_
    refine .bind (keeps_aside _) fun _ => .ite (fun _ => .pure _) fun _ => ?_
    exact .bind (keeps_updateService _ fun _ _ => isRecorded_zero) fun _ => .pure _

theorem keeps_deleteFromPcFolder (serviceName : CStr) :
    Exec.Keeps Sound (deleteFromPcFolder (Watched.calls base) serviceName) :=
  .ite (fun _ => .throw _) fun _ => .bind (keeps_aside _) fun _ => .ite (fun _ => .pure _)
    fun _ => .bind (keeps_aside _) fun _ => .ite (fun _ => .pure _) fun _ => .pure _

theorem keeps_normalDeleteServices (serviceName : CStr) :
    Exec.Keeps Sound (normalDeleteServices (Watched.calls base) serviceName) := by
  refine .get_bind fun p _ => .ite (fun _ => .pure _) fun _ => ?_
  refine keeps_findService fun o ho => ?_
  cases o with
  | none => exact .pure _
  | some s =>
    have hkill : Exec.Keeps Sound (killService (Watched.calls base) s.pid) :=
      keeps_killService (ho s rfl)
    refine .bind (keeps_deleteFromPcFolder _) fun _ => .ite (fun _ => .pure _) fun _ => ?_
    refine .bind (keeps_services fun t a t' ht hrec => ?_) fun _ => .get_bind fun p _ =>
      .ite (fun _ => ?_) fun _ => ?_
    · obtain ⟨t'', ht'', hitems⟩ := dropService_eq serviceName t
      rw [ht''] at ht
      cases ht
      rw [hitems]
      exact fun x hx => hrec x (List.mem_of_mem_eraseP hx)
    · exact .bind hkill fun _ => .bind (keeps_limits _) fun _ =>
        .ite (fun _ => .pure _) fun _ => .pure _
    · exact .bind (keeps_limits _) fun _ => .ite (fun _ => .pure _) fun _ =>
        .bind hkill fun _ => .pure _

def LaunchesRecorded (base : Calls W) : Prop :=
  ∀ params w pid, (base.launch params w).1 = .answered pid → IsRecorded pid

theorem keeps_startThread_watched (hbase : LaunchesRecorded base) (params : Param) :
    Exec.Keeps Sound (startThread (Watched.calls base) params) :=
  keeps_startThread (keeps_aside _) (keeps_aside _) (keeps_aside _) (fun _ => keeps_aside _)
    (fun _ h => ⟨h.withWorld h.2, fun pid hpid => keeps_setPid _ (hbase _ _ pid hpid)⟩)
    (keeps_setPid _ isRecorded_zero) fun _ _ _ h => ⟨⟨h.1.services, h.1.jobs, h.1.daemon⟩, h.2⟩

theorem keeps_updateAvialable :
    Exec.Keeps Sound (updateAvialable : Exec (Process (Watched W)) Bool) :=
  .bind (keeps_onFiles (keeps_openCreate _)) fun _ => .get_bind fun _ _ =>
    .ite (fun _ => .throw _) fun _ => .pure _

theorem keeps_runService (hbase : LaunchesRecorded base) (name : CStr) (bash : Option CStr)
    (attach : Bool) : Exec.Keeps Sound (runService (Watched.calls base) name bash attach) := by
  refine .get_bind fun p _ => .ite (fun _ => .pure _) fun _ => .ite (fun _ => .pure _) fun _ => ?_
  refine .bind keeps_updateAvialable fun _ => .ite (fun _ => .pure _) fun _ => ?_
  refine .bind (keeps_findSlot name) fun o => ?_
  cases o with
  | none => exact .pure _
  | some i => exact .bind (.ofExcept _) fun _ => keeps_startThread_watched hbase _

theorem keeps_restartService (hbase : LaunchesRecorded base) (serviceName : CStr)
    (bash : Option CStr) (attach : Bool) :
    Exec.Keeps Sound (restartService (Watched.calls base) serviceName bash attach) := by
  have hwarm (i : Nat) : Exec.Keeps Sound (warmService (Watched.calls base) i serviceName
      (some (bash.getD defaultScript)) attach) :=
    .ite (fun _ => .pure _) fun _ => .bind keeps_updateAvialable fun _ =>
      .ite (fun _ => .pure _) fun _ => keeps_startThread_watched hbase _
  refine .bind (keeps_findSlot serviceName) fun o => ?_
  cases o with
  | none => exact .pure _
  | some i =>
    refine .get_bind fun p h => ?_
    refine .bind (keeps_killService (isRecorded_slot h.1 i)) fun _ => .ite (fun _ => .pure _)
      fun _ => .bind (hwarm i) fun _ => .ite (fun _ => .pure _) fun _ => ?_
    refine .get_bind fun p h => .bind (keeps_aside _) fun _ => .ite (fun _ => ?_) fun _ => .pure _
    exact .bind (keeps_killService (isRecorded_slot h.1 i)) fun _ => .ite (fun _ => .pure _)
      fun _ => .pure _

theorem keeps_killJobs {jobs : List Job} (hjobs : ∀ j ∈ jobs, IsRecorded j.pid) :
    Exec.Keeps Sound (killJobs (Watched.calls base) jobs) := by
  induction jobs with
  | nil => exact .pure _
  | cons currentJob jobs ih =>
    obtain ⟨hjob, hjobs⟩ := List.forall_mem_cons.mp hjobs
    exact .ite (fun _ => ih hjobs) fun hne =>
      .bind (keeps_killProcess (hjob.pos hne)) fun _ => ih hjobs

theorem keeps_clearPids :
    Exec.Keeps Sound (modify fun p => { p with jobs := clearPids p.jobs } :
      Exec (Process (Watched W)) PUnit) := by
  refine .modify fun p h => ⟨⟨h.1.services, fun j hj => ?_, h.1.daemon⟩, h.2⟩
  obtain ⟨j', -, rfl⟩ := List.mem_map.mp hj
  exact isRecorded_zero

theorem isRecorded_atoi {fs : Files} (h : DaemonRecorded fs) :
    IsRecorded (atoi (.ofBytes ((fs.content (.file .jobDaemonPid)).take pidBuffSize))) := by
  rcases h with h | ⟨pid, hpid, h⟩
  · rw [h]
    exact isRecorded_zero
  · have hlen := length_fmtInt32_le pid
    rw [h, List.take_of_length_le (le_trans hlen (by decide)), CStr.ofBytes_bytes, atoi_fmtInt32]
    exact hpid

theorem keeps_stopJobDaemon (setFails : Bool) :
    Exec.Keeps Sound (stopJobDaemon (Watched.calls base) .reads setFails) := by
  intro p h
  rw [stopJobDaemon, Exec.wp_bind, wp_getDaemonPid]
  have hopened : Sound (openedPidFile p) := by
    refine ⟨⟨h.1.services, h.1.jobs, ?_⟩, h.2⟩
    rw [DaemonRecorded, openedPidFile, FileStore.content_openCreate]
    exact h.1.daemon
  refine Exec.Keeps.ite (fun _ => .pure _) (fun hne => ?_) _ hopened
  refine .bind (keeps_kill ((isRecorded_atoi h.1.daemon).pos hne) _) fun _ => .ite
    (fun _ => .pure _) fun _ => .bind (keeps_setDaemonPid _ isRecorded_zero) fun _ => ?_
  exact .ite (fun _ => .pure _) fun _ => .get_bind fun _ h => .bind (keeps_killJobs h.1.jobs)
    fun _ => .bind keeps_clearPids fun _ => .pure _

end keeps

/-! ## Runs -/

/-- The operations on services, jobs and the daemon; that a daemon starts is one too. -/
inductive SignalOp where
  | add (githubRepo nickName : CStr)
  | rename (serviceName newName : CStr)
  | createJob (jobName runnableFile : CStr) (secondsInterval now : BitVec 64)
  | removeJob (jobName : CStr)
  | run (name : CStr) (bash : Option CStr) (attach : Bool)
  | restart (serviceName : CStr) (bash : Option CStr) (attach : Bool)
  | stop (serviceName : CStr)
  | remove (serviceName : CStr)
  | stopDaemon (io : PidFileRead) (setFails : Bool)
  | daemonStarts (pid : BitVec 32) (recorded : IsRecorded pid)

namespace SignalOp

def exec (base : Calls W) : SignalOp → Exec (Process (Watched W)) Int
  | add githubRepo nickName => addProject (Watched.calls base) githubRepo nickName
  | rename serviceName newName => do
    renameService (Watched.calls base) serviceName newName
    pure 0
  | createJob jobName runnableFile secondsInterval now =>
    onJobs (MiniRunner.createJob jobName runnableFile secondsInterval now)
  | removeJob jobName => onJobs fun t => .ok (MiniRunner.removeJob jobName t)
  | run name bash attach => runService (Watched.calls base) name bash attach
  | restart serviceName bash attach =>
    restartService (Watched.calls base) serviceName bash attach
  | stop serviceName => stopService (Watched.calls base) serviceName
  | remove serviceName => normalDeleteServices (Watched.calls base) serviceName
  | stopDaemon io setFails => stopJobDaemon (Watched.calls base) io setFails
  | daemonStarts pid _ => setDaemonPid false pid

/-- One operation; a run ends where it does not return. -/
def step (base : Calls W) (op : SignalOp) (p : Process (Watched W)) :
    Option (Process (Watched W)) :=
  match (op.exec base).run p with
  | .ok _ p' => some p'
  | .error _ _ => none

def StopsDaemon : SignalOp → Prop
  | stopDaemon _ _ => True
  | _ => False

/-- **Every signal goes to one process**, whether the operation returns or halts. What
stopping the daemon does after undefined behaviour counts as a signal to all. -/
def Aimed (base : Calls W) (p : Process (Watched W)) (op : SignalOp) : Prop :=
  Exec.wp (op.exec base) (fun _ => OneEach)
    (fun e p' => OneEach p' ∧ (op.StopsDaemon → e ≠ .undefined)) p

/-- The daemon pid file can be opened, looked at and read. -/
def ReadsPidFile : SignalOp → Prop
  | stopDaemon io _ => io = .reads
  | _ => True

variable {base : Calls W} {p p' : Process (Watched W)} {op : SignalOp}

theorem keeps (hbase : LaunchesRecorded base) (hop : op.ReadsPidFile) :
    Exec.Keeps Sound (op.exec base) := by
  cases op with
  | add githubRepo nickName => exact keeps_addProject githubRepo nickName
  | rename serviceName newName =>
    exact .bind (keeps_renameService serviceName newName) fun _ => .pure _
  | createJob jobName runnableFile secondsInterval now =>
    exact keeps_jobs fun t rc t' ht hrec =>
      Table.forall_insert (P := fun j : Job => IsRecorded j.pid) ht isRecorded_zero hrec
  | removeJob jobName =>
    refine keeps_jobs fun t rc t' ht hrec => ?_
    obtain rfl : t' = (MiniRunner.removeJob jobName t).2 := by rw [Except.ok.inj ht]
    rw [removeJob_items]
    exact fun j hj => hrec j (List.mem_of_mem_eraseP hj)
  | run name bash attach => exact keeps_runService hbase name bash attach
  | restart serviceName bash attach => exact keeps_restartService hbase serviceName bash attach
  | stop serviceName => exact keeps_stopService serviceName
  | remove serviceName => exact keeps_normalDeleteServices serviceName
  | stopDaemon io setFails =>
    cases hop
    exact keeps_stopJobDaemon setFails
  | daemonStarts pid recorded => exact keeps_setDaemonPid false recorded

theorem killJobs_returns (sys : Calls W) (jobs : List Job) (p : Process W) :
    Exec.wp (killJobs sys jobs) (fun _ _ => True) (fun _ _ => False) p := by
  induction jobs generalizing p with
  | nil => exact (Exec.wp_pure _).mpr trivial
  | cons currentJob jobs ih =>
    simp only [killJobs, killJob, killProcess, Exec.wp_ite, Exec.wp_bind, wp_call, Exec.wp_pure]
    exact ⟨fun _ => ih p, fun _ => ⟨fun _ => ih _, fun _ => ⟨fun _ => ih _, fun _ => ih _⟩⟩⟩

theorem stopJobDaemon_returns (setFails : Bool) (p : Process (Watched W)) :
    Exec.wp (stopJobDaemon (Watched.calls base) .reads setFails) (fun _ _ => True)
      (fun _ _ => False) p := by
  simp only [stopJobDaemon, stopDaemonOf, setDaemonPid, Exec.wp_bind, wp_getDaemonPid, Exec.wp_ite,
    Exec.wp_pure, wp_call, wp_onFiles, wp_doBackup, Exec.wp_modify, Exec.wp_get, implies_true,
    true_and, ne_eq]
  exact fun _ _ => ⟨fun _ _ => killJobs_returns _ _ _, fun _ =>
    ⟨fun _ _ => killJobs_returns _ _ _, fun _ _ => killJobs_returns _ _ _⟩⟩

section sent

variable {t : BitVec 32}

theorem sent_kill (sig : Signal) (pid : BitVec 32) :
    Exec.Keeps (fun p => t ∈ p.world.targets) (call ((Watched.calls base).kill sig pid)) :=
  fun _ h => wp_call.mpr (List.mem_append_left _ h)

theorem sent_onFiles {α : Type} (x : Exec Files α) :
    Exec.Keeps (fun p => t ∈ p.world.targets) (onFiles x : Exec (Process (Watched W)) α) :=
  fun _ h => wp_onFiles.mpr <|
    Exec.wp_mono Exec.wp_true (fun _ _ _ => h) fun _ _ _ => h

theorem sent_killJobs (jobs : List Job) :
    Exec.Keeps (fun p => t ∈ p.world.targets) (killJobs (Watched.calls base) jobs) := by
  induction jobs with
  | nil => exact .pure _
  | cons currentJob jobs ih =>
    exact .ite (fun _ => ih) fun _ => .bind
      (.bind (sent_kill _ _) fun _ => .ite (fun _ => .pure _) fun _ =>
        .bind (sent_kill _ _) fun _ => .ite (fun _ => .pure _) fun _ => .pure _) fun _ => ih

theorem sent_setDaemonPid (fails : Bool) (pid : BitVec 32) : Exec.Keeps
    (fun p => t ∈ p.world.targets) (setDaemonPid fails pid : Exec (Process (Watched W)) Int) :=
  .bind (sent_onFiles _) fun _ => .ite (fun _ => .pure _) fun _ => .bind (sent_onFiles _) fun _ =>
    .ite (fun _ => .pure _) fun _ => .bind (sent_onFiles _) fun _ => .pure _

theorem sent_stopDaemonOf (ht : t ≠ 0) (setFails : Bool) (p : Process (Watched W)) :
    Exec.wp (stopDaemonOf (Watched.calls base) setFails t) (fun _ p' => t ∈ p'.world.targets)
      (fun _ p' => t ∈ p'.world.targets) p := by
  rw [stopDaemonOf, if_neg ht, Exec.wp_bind, wp_call]
  have hmem : t ∈ ((Watched.calls base).kill .sigkill t p.world).2.targets :=
    List.mem_append_right _ (List.mem_singleton_self t)
  refine Exec.Keeps.ite (fun _ => .pure _) (fun _ => ?_) _ hmem
  exact .bind (sent_setDaemonPid setFails 0) fun _ => .ite (fun _ => .pure _) fun _ =>
    .get_bind fun p _ => .bind (sent_killJobs p.jobs.items) fun _ =>
      .bind (.modify fun _ h => h) fun _ => .pure _

end sent

/-- A failure of reading the daemon pid file is a signal to every process. -/
theorem not_aimed_of_failure {io : PidFileRead} (hio : io ≠ .reads) (setFails : Bool) :
    ¬(stopDaemon io setFails).Aimed base p := by
  intro haimed
  rw [Aimed, exec, stopJobDaemon, Exec.wp_bind, wp_getDaemonPid] at haimed
  have hall {p : Process (Watched W)} (hmem : noDaemonPid ∈ p.world.targets) : ¬OneEach p :=
    fun h => absurd (h _ hmem) (by decide)
  have hsent (p : Process (Watched W)) :
      Exec.wp (stopDaemonOf (Watched.calls base) setFails noDaemonPid)
        (fun _ p' => noDaemonPid ∈ p'.world.targets) (fun _ p' => noDaemonPid ∈ p'.world.targets)
        p := sent_stopDaemonOf (by decide) setFails p
  cases io with
  | openFails =>
    exact Exec.not_wp_false (Exec.wp_mono (Exec.wp_and haimed (hsent _))
      (fun _ _ h => hall h.2 h.1) fun _ _ h => hall h.2 h.1.1)
  | fstatFails =>
    exact Exec.not_wp_false (Exec.wp_mono (Exec.wp_and haimed (hsent _))
      (fun _ _ h => hall h.2 h.1) fun _ _ h => hall h.2 h.1.1)
  | readFails => exact haimed.2 trivial rfl
  | reads => exact hio rfl

theorem aimed_of_not_stopsDaemon (hbase : LaunchesRecorded base) (h : Sound p)
    (hop : op.ReadsPidFile) (hstops : ¬op.StopsDaemon) : op.Aimed base p :=
  Exec.wp_mono (keeps hbase hop p h) (fun _ _ hp => hp.2) fun _ _ hp =>
    ⟨hp.2, fun hstop => (hstops hstop).elim⟩

theorem aimed_iff (hbase : LaunchesRecorded base) (h : Sound p) :
    op.Aimed base p ↔ op.ReadsPidFile := by
  cases op with
  | stopDaemon io setFails =>
    refine ⟨fun haimed => ?_, fun hio => ?_⟩
    · exact Classical.byContradiction fun hio => not_aimed_of_failure hio setFails haimed
    · obtain rfl : io = .reads := hio
      exact Exec.wp_mono (Exec.wp_and (keeps_stopJobDaemon setFails p h)
        (stopJobDaemon_returns setFails p)) (fun _ _ hp => hp.1.2) fun _ _ hp => hp.2.elim
  | add | rename | createJob | removeJob | run | restart | stop | remove | daemonStarts =>
    exact iff_of_true (aimed_of_not_stopsDaemon hbase h trivial id) trivial

theorem sound_step (hbase : LaunchesRecorded base) (h : Sound p) (hop : op.ReadsPidFile)
    (hstep : op.step base p = some p') : Sound p' := by
  rw [step] at hstep
  split at hstep
  · rename_i hrun
    cases hstep
    exact Exec.wp_run_ok (Q := fun _ => Sound) (keeps hbase hop p h) hrun
  · cases hstep

end SignalOp

/-- **Signals in every run.** From recorded pids every signal of every operation goes to one
process, if and only if wherever the run stops the daemon its pid file can be read. -/
theorem signals_aimed_iff {base : Calls W} (hbase : LaunchesRecorded base)
    {p : Process (Watched W)} (h : Sound p) (ops : List SignalOp) :
    Guarded (SignalOp.step base) (fun p op => op.Aimed base p) ops p ↔
      Guarded (SignalOp.step base) (fun _ op => op.ReadsPidFile) ops p :=
  guarded_congr (fun h => SignalOp.aimed_iff hbase h) (SignalOp.sound_step hbase) ops h

/-- A running service and a running daemon, and no signal sent. -/
def daemonRuns : Process (Watched Unit) where
  files := FileStore.rewrite (fun _ => none) (.file .jobDaemonPid) [49, 50]
  world := ⟨(), []⟩
  services := .ofList [⟨.ofBytes [114], .ofBytes [97], 7, true⟩]
  jobs := .ofList [newJob (.ofBytes [106]) (.ofBytes [47]) 60 0]
  envs := .blank 20 20
  limits := .blank 4 4
  reformatState := true
  reformatLimits := false

theorem sound_daemonRuns : Sound daemonRuns where
  left := ⟨by decide, by decide, .inr ⟨12, by decide, by decide⟩⟩
  right := List.forall_mem_nil _

theorem launchesRecorded_allWell : LaunchesRecorded (.allWell 9) := fun _ _ pid h => by
  cases h
  decide

theorem signals_aimed_iff_stopAll :
    Guarded (SignalOp.step (.allWell 9)) (fun p op => op.Aimed (.allWell 9) p)
      [.stop (.ofBytes [97]), .stopDaemon .reads false] daemonRuns :=
  (signals_aimed_iff launchesRecorded_allWell sound_daemonRuns _).mpr
    ⟨trivial, fun _ _ => ⟨rfl, fun _ _ => trivial⟩⟩

/-- The pid file of the daemon cannot be opened: the signal goes to every process. -/
theorem not_signals_aimed : Sound daemonRuns ∧
    ¬Guarded (SignalOp.step (.allWell 9)) (fun p op => op.Aimed (.allWell 9) p)
      [.stopDaemon .openFails false] daemonRuns :=
  ⟨sound_daemonRuns, fun h => SignalOp.not_aimed_of_failure PidFileRead.noConfusion false h.1⟩

end MiniRunner
