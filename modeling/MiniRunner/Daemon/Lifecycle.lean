import Mathlib.Logic.Function.Basic
import MiniRunner.Kernel.Signals

/-!
# The life of the daemon

`warmup-jobs`, `stop-jobs`, `restart-jobs` and the pid file, among the processes of the
machine. `launchDaemon` forks and looks at nothing; the thread it starts records its own
pid, later and without looking either. `stopJobDaemon` knows one process, the one of the
pid file, and gives up when `kill` finds no such process.

While at most one daemon runs, and it is the recorded one, both commands work. A run stays
so exactly as long as no daemon records itself beside a running one, no running daemon
ends by itself and no write of the pid file fails (`one_daemon_iff`). After the first, the
daemon whose pid was overwritten is out of reach (`forgotten_runs_on`); after the second,
stopping and restarting fail until another daemon records itself (`dead_stays_recorded`).
-/

namespace MiniRunner.Lifecycle

open Clib Process

inductive Role where
  | free
  | other
  /-- A daemon that has not recorded its pid yet. -/
  | starting
  | running
  deriving DecidableEq, Repr

structure Machine where
  role : BitVec 32 → Role

def Machine.set (m : Machine) (pid : BitVec 32) (r : Role) : Machine :=
  ⟨Function.update m.role pid r⟩

/-- `kill`: it fails where no process has the pid. -/
def Machine.kill (sig : Signal) (pid : BitVec 32) (m : Machine) : Int × Machine :=
  if m.role pid = .free then (-1, m)
  else (0, if sig = .sigkill then m.set pid .free else m)

/-- The calls of mrn on this machine; the commands of the daemon make no other than `kill`. -/
def machineCalls : Calls Machine where
  clone _ _ m := (.done, m)
  folderExists _ m := (true, m)
  deleteFolderRecursievly _ m := (0, m)
  renameFolder _ _ m := (0, m)
  kill := Machine.kill
  updateCgrp _ m := (0, m)
  updateCgroup _ _ m := (0, m)
  renameCgrp _ _ _ m := (0, m)
  createThread m := (0, m)
  detachThread m := (0, m)
  launch _ m := (.noPipe, m)
  lag m := (.through, m)
  interruptLast _ m := (false, m)
  limitCpuAndMemory _ _ _ _ _ m := (0, m)
  limitMm _ _ _ m := (0, m)
  fileExists _ m := (true, m)
  time m := (0, m)

/-- `launchDaemon`; `pid` is what `fork` returns, which no process has. -/
def launchDaemon (pid : BitVec 32) : Exec (Process Machine) Int := do
  let p ← get
  if p.world.role pid ≠ .free ∨ pid.toInt ≤ 0 then throw .blocked
  else
    set { p with world := p.world.set pid .starting }
    pure 0

/-- `restartJobDaemon`, which falls off its end: its caller sees what is left of a result. -/
def restartJobDaemon (setFails : Bool) (pid : BitVec 32) (leftover : Int) :
    Exec (Process Machine) Int := do
  if (← stopJobDaemon machineCalls .reads setFails) ≠ 0 then pure (-1)
  else if (← launchDaemon pid) ≠ 0 then pure (-1)
  else pure leftover

/-- The commands, each with the jobs its process has loaded, and what else happens. -/
inductive LifeAct where
  | warmup (pid : BitVec 32)
  | stop (jobs : Table Job) (setFails : Bool)
  | restart (jobs : Table Job) (setFails : Bool) (pid : BitVec 32) (leftover : Int)
  /-- The daemon of that pid gets to `setPid`, which it tries until it succeeds. -/
  | records (pid : BitVec 32)
  /-- A process ends by itself. -/
  | dies (pid : BitVec 32)
  /-- A process of somebody else begins. -/
  | begins (pid : BitVec 32)

namespace LifeAct

def exec : LifeAct → Exec (Process Machine) Int
  | warmup pid => launchDaemon pid
  | stop jobs setFails => do
    modify fun p => { p with jobs := jobs }
    stopJobDaemon machineCalls .reads setFails
  | restart jobs setFails pid leftover => do
    modify fun p => { p with jobs := jobs }
    restartJobDaemon setFails pid leftover
  | records pid => do
    let p ← get
    if p.world.role pid ≠ .starting then throw .blocked
    else
      set { p with world := p.world.set pid .running }
      setDaemonPid false pid
  | dies pid => do
    let p ← get
    if p.world.role pid = .free then throw .blocked
    else
      set { p with world := p.world.set pid .free }
      pure 0
  | begins pid => do
    let p ← get
    if p.world.role pid ≠ .free then throw .blocked
    else
      set { p with world := p.world.set pid .other }
      pure 0

/-- A step; what cannot happen is no step. -/
def step (a : LifeAct) (p : Process Machine) : Option (Process Machine) :=
  match (a.exec).run p with
  | .ok _ p' => some p'
  | .error _ _ => none

end LifeAct

/-- The pid that `getDaemonPid` reads. -/
def recordedPid (fs : Files) : BitVec 32 :=
  atoi (.ofBytes ((fs.content (.file .jobDaemonPid)).take pidBuffSize))

/-! ## What the calls do -/

section calls

variable {p : Process Machine}

/-- A failed `setPid` leaves the recorded pid, any other one replaces it. -/
theorem wp_setDaemonPid (fails : Bool) (pid : BitVec 32) :
    Exec.wp (setDaemonPid fails pid)
      (fun rc p' => (rc = 0 ↔ fails = false) ∧
        recordedPid p'.files = (if fails then recordedPid p.files else pid) ∧
        p'.world = p.world ∧ p'.jobs = p.jobs)
      (fun _ _ => False) p := by
  simp only [setDaemonPid, Exec.wp_bind, wp_onFiles, Exec.wp_modify, Exec.wp_ite, Exec.wp_pure,
    wp_doBackup, ne_eq, not_true_eq_false, false_implies, true_and, not_false_eq_true,
    forall_const]
  refine ⟨fun hf => ?_, fun hf => ?_⟩
  · simp [hf, recordedPid]
  · have hlen := length_fmtInt32_le pid
    have hread : recordedPid ((doBackupFiles (.file .jobDaemonPid) (.fileCopy .jobDaemonPid)
        (p.files.openCreate (.file .jobDaemonPid))).rewrite (.file .jobDaemonPid)
          (fmtInt32 pid).bytes) = pid := by
      rw [recordedPid, FileStore.content_rewrite, if_pos rfl,
        List.take_of_length_le (hlen.trans (by decide)), CStr.ofBytes_bytes, atoi_fmtInt32]
    simp [hf, hread]

/-- Processes end, or stay as they are; those that `spared` names stay. -/
structure Machine.Thins (spared : BitVec 32 → Prop) (m m' : Machine) : Prop where
  ends : ∀ q, m'.role q = m.role q ∨ m'.role q = .free
  spares : ∀ q, spared q → m'.role q = m.role q

theorem Machine.Thins.refl (spared : BitVec 32 → Prop) (m : Machine) : m.Thins spared m :=
  ⟨fun _ => .inl rfl, fun _ _ => rfl⟩

theorem Machine.Thins.trans {spared : BitVec 32 → Prop} {m m' m'' : Machine}
    (h : m.Thins spared m') (h' : m'.Thins spared m'') : m.Thins spared m'' where
  ends q := (h'.ends q).elim (fun he => (h.ends q).imp he.trans he.trans) .inr
  spares q hq := (h'.spares q hq).trans (h.spares q hq)

theorem Machine.role_set (m : Machine) (pid q : BitVec 32) (r : Role) :
    (m.set pid r).role q = if q = pid then r else m.role q := by
  simp only [Machine.set, Function.update_apply]

theorem Machine.thins_kill {spared : BitVec 32 → Prop} {pid : BitVec 32} (hpid : ¬spared pid)
    (sig : Signal) (m : Machine) : m.Thins spared (Machine.kill sig pid m).2 := by
  rw [Machine.kill]
  split
  · exact .refl _ _
  · split
    · refine ⟨fun q => ?_, fun q hq => ?_⟩
      · rw [Machine.role_set]
        split
        · exact .inr rfl
        · exact .inl rfl
      · have hne : q ≠ pid := fun he => hpid (he ▸ hq)
        rw [Machine.role_set, if_neg hne]
    · exact .refl _ _

/-- From `p` on, only processes that are not spared have ended. -/
structure Kills (spared : BitVec 32 → Prop) (p p' : Process Machine) : Prop where
  files : p'.files = p.files
  jobs : p'.jobs = p.jobs
  world : p.world.Thins spared p'.world

theorem keeps_kills {spared : BitVec 32 → Prop} {pid : BitVec 32} (hpid : ¬spared pid)
    (sig : Signal) (p : Process Machine) :
    Exec.Keeps (Kills spared p) (call (machineCalls.kill sig pid)) := fun _ h =>
  wp_call.mpr ⟨h.files, h.jobs, h.world.trans (Machine.thins_kill hpid sig _)⟩

theorem keeps_killJobs {spared : BitVec 32 → Prop} (p : Process Machine) {jobs : List Job}
    (hjobs : ∀ j ∈ jobs, ¬spared j.pid) :
    Exec.Keeps (Kills spared p) (killJobs machineCalls jobs) := by
  induction jobs with
  | nil => exact .pure _
  | cons currentJob jobs ih =>
    have ih := ih fun j hj => hjobs j (List.mem_cons_of_mem _ hj)
    have hpid := hjobs currentJob List.mem_cons_self
    exact .ite (fun _ => ih) fun _ => .bind
      (.bind (keeps_kills hpid _ p) fun _ => .ite (fun _ => .pure _) fun _ =>
        .bind (keeps_kills hpid _ p) fun _ => .ite (fun _ => .pure _) fun _ => .pure _) fun _ => ih

theorem wp_getDaemonPid_reads {Q : BitVec 32 → Process Machine → Prop}
    {E : Halt → Process Machine → Prop} :
    Exec.wp (getDaemonPid .reads) Q E p ↔ Q (recordedPid p.files) (openedPidFile p) :=
  wp_getDaemonPid

/-- How `stopJobDaemon` can end. -/
inductive StopEnds (setFails : Bool) (p : Process Machine) : Int → Process Machine → Prop
  /-- No process has the recorded pid. -/
  | nobody {rc : Int} {p' : Process Machine} (hrc : rc ≠ 0)
      (hnobody : recordedPid p.files = 0 ∨ p.world.role (recordedPid p.files) = .free)
      (hrecorded : recordedPid p'.files = recordedPid p.files) (hworld : p'.world = p.world) :
      StopEnds setFails p rc p'
  /-- It is killed, but goes on being recorded. -/
  | unrecorded {rc : Int} {p' : Process Machine} (hrc : rc ≠ 0) (hfails : setFails = true)
      (hpid : recordedPid p.files ≠ 0) (hlive : p.world.role (recordedPid p.files) ≠ .free)
      (hrecorded : recordedPid p'.files = recordedPid p.files)
      (hworld : p'.world = p.world.set (recordedPid p.files) .free) : StopEnds setFails p rc p'
  | stopped {rc : Int} {p' : Process Machine} (hrc : rc = 0) (hfails : setFails = false)
      (hpid : recordedPid p.files ≠ 0) (hlive : p.world.role (recordedPid p.files) ≠ .free)
      (hrecorded : recordedPid p'.files = 0)
      (hworld : (p.world.set (recordedPid p.files) .free).Thins
        (fun q => ∀ j ∈ p.jobs.items, j.pid ≠ q) p'.world) : StopEnds setFails p rc p'

theorem StopEnds.recorded_of_zero {setFails : Bool} {p p' : Process Machine}
    (h : StopEnds setFails p 0 p') : setFails = false := by
  cases h with
  | nobody hrc => exact absurd rfl hrc
  | unrecorded hrc => exact absurd rfl hrc
  | stopped _ hfails => exact hfails

theorem wp_stopJobDaemon (setFails : Bool) (p : Process Machine) :
    Exec.wp (stopJobDaemon machineCalls .reads setFails) (StopEnds setFails p)
      (fun _ _ => False) p := by
  rw [stopJobDaemon, Exec.wp_bind, wp_getDaemonPid_reads]
  have hopened : recordedPid (openedPidFile p).files = recordedPid p.files := by
    simp [recordedPid, openedPidFile]
  rw [stopDaemonOf]
  by_cases hpid : recordedPid p.files = 0
  · rw [if_pos hpid, Exec.wp_pure]
    exact .nobody (by decide) (.inl hpid) hopened rfl
  rw [if_neg hpid, Exec.wp_bind, wp_call]
  by_cases hfree : p.world.role (recordedPid p.files) = .free
  · have hkill : machineCalls.kill .sigkill (recordedPid p.files) (openedPidFile p).world =
        (-1, p.world) := if_pos hfree
    rw [hkill, if_pos (by simp), Exec.wp_pure]
    exact .nobody (by decide) (.inr hfree) hopened rfl
  · have hkill : machineCalls.kill .sigkill (recordedPid p.files) (openedPidFile p).world =
        (0, p.world.set (recordedPid p.files) .free) := if_neg hfree
    rw [hkill, if_neg (by simp), Exec.wp_bind]
    refine Exec.wp_mono (wp_setDaemonPid setFails 0) ?_ fun _ _ h => h
    rintro rc p' ⟨hrc, hrecorded, hworld, hjobs⟩
    cases hf : setFails with
    | true =>
      have hne : rc ≠ 0 := by simpa [hf] using hrc
      rw [if_pos hne, Exec.wp_pure]
      rw [hf, if_pos rfl] at hrecorded
      exact .unrecorded (by decide) rfl hpid hfree (hrecorded.trans hopened) hworld
    | false =>
      have heq : rc = 0 := by simpa [hf] using hrc
      rw [hf, if_neg (by decide)] at hrecorded
      rw [if_neg (by simpa using heq), Exec.wp_bind, Exec.wp_get, Exec.wp_bind]
      have hkills : Exec.Keeps (Kills (fun q => ∀ j ∈ p'.jobs.items, j.pid ≠ q) p')
          (killJobs machineCalls p'.jobs.items) :=
        keeps_killJobs p' fun j hj hall => hall j hj rfl
      refine Exec.wp_mono (Exec.wp_and (hkills p' ⟨rfl, rfl, .refl _ _⟩)
        (SignalOp.killJobs_returns machineCalls p'.jobs.items p')) ?_ fun _ _ h => h.2
      rintro - q ⟨⟨hfiles, hjobs', hthins⟩, -⟩
      simp only [Exec.wp_bind, Exec.wp_modify, Exec.wp_pure]
      refine .stopped rfl rfl hpid hfree ?_ ?_
      · rw [hfiles]
        exact hrecorded
      · rw [hworld, hjobs] at hthins
        exact hthins

/-- A launch: the process begins, and nothing is recorded yet. -/
structure Launched (pid : BitVec 32) (p p' : Process Machine) : Prop where
  wasFree : p.world.role pid = .free
  positive : pid ≠ 0
  recorded : recordedPid p'.files = recordedPid p.files
  world : p'.world = p.world.set pid .starting

theorem wp_launchDaemon (pid : BitVec 32) (p : Process Machine) :
    Exec.wp (launchDaemon pid) (fun rc p' => rc = 0 ∧ Launched pid p p') (fun _ _ => True) p := by
  rw [launchDaemon, Exec.wp_bind, Exec.wp_get, Exec.wp_ite]
  refine ⟨fun _ => (Exec.wp_throw _).mpr trivial, fun h => ?_⟩
  simp only [Exec.wp_bind, Exec.wp_set, Exec.wp_pure]
  obtain ⟨hfree, hpos⟩ := not_or.mp h
  refine ⟨trivial, not_not.mp hfree, fun hzero => hpos ?_, rfl, rfl⟩
  rw [hzero]
  decide

inductive LifeStep (p : Process Machine) : LifeAct → Process Machine → Prop
  | warmup {pid : BitVec 32} {p' : Process Machine} (h : Launched pid p p') :
      LifeStep p (.warmup pid) p'
  | stop {jobs : Table Job} {setFails : Bool} {rc : Int} {p' : Process Machine}
      (h : StopEnds setFails { p with jobs := jobs } rc p') : LifeStep p (.stop jobs setFails) p'
  | keptDown {jobs : Table Job} {setFails : Bool} {pid : BitVec 32} {leftover rc : Int}
      {p' : Process Machine} (hrc : rc ≠ 0)
      (h : StopEnds setFails { p with jobs := jobs } rc p') :
      LifeStep p (.restart jobs setFails pid leftover) p'
  | restarted {jobs : Table Job} {setFails : Bool} {pid : BitVec 32} {leftover : Int}
      {q p' : Process Machine} (h : StopEnds setFails { p with jobs := jobs } 0 q)
      (hlaunch : Launched pid q p') : LifeStep p (.restart jobs setFails pid leftover) p'
  | records {pid : BitVec 32} {p' : Process Machine} (hrole : p.world.role pid = .starting)
      (hrecorded : recordedPid p'.files = pid) (hworld : p'.world = p.world.set pid .running) :
      LifeStep p (.records pid) p'
  | dies {pid : BitVec 32} {p' : Process Machine}
      (hrecorded : recordedPid p'.files = recordedPid p.files)
      (hworld : p'.world = p.world.set pid .free) : LifeStep p (.dies pid) p'
  | begins {pid : BitVec 32} {p' : Process Machine} (hrole : p.world.role pid = .free)
      (hrecorded : recordedPid p'.files = recordedPid p.files)
      (hworld : p'.world = p.world.set pid .other) : LifeStep p (.begins pid) p'

theorem LifeAct.wp_exec (a : LifeAct) (p : Process Machine) :
    Exec.wp (a.exec) (fun _ p' => LifeStep p a p') (fun _ _ => True) p := by
  cases a with
  | warmup pid =>
    exact Exec.wp_mono (wp_launchDaemon pid p) (fun _ _ h => .warmup h.2) fun _ _ h => h
  | stop jobs setFails =>
    rw [exec, Exec.wp_bind, Exec.wp_modify]
    exact Exec.wp_mono (wp_stopJobDaemon setFails _) (fun _ _ h => .stop h) fun _ _ _ => trivial
  | restart jobs setFails pid leftover =>
    rw [exec, Exec.wp_bind, Exec.wp_modify, restartJobDaemon, Exec.wp_bind]
    refine Exec.wp_mono (wp_stopJobDaemon setFails _) (fun rc q h => ?_) fun _ _ _ => trivial
    rw [Exec.wp_ite]
    refine ⟨fun hrc => (Exec.wp_pure _).mpr (.keptDown hrc h), fun hrc => ?_⟩
    obtain rfl : rc = 0 := not_not.mp hrc
    rw [Exec.wp_bind]
    refine Exec.wp_mono (wp_launchDaemon pid q) ?_ fun _ _ h => h
    rintro _ p' ⟨rfl, hlaunch⟩
    rw [if_neg (by decide), Exec.wp_pure]
    exact .restarted h hlaunch
  | records pid =>
    rw [exec, Exec.wp_bind, Exec.wp_get, Exec.wp_ite]
    refine ⟨fun _ => (Exec.wp_throw _).mpr trivial, fun h => ?_⟩
    rw [Exec.wp_bind, Exec.wp_set]
    refine Exec.wp_mono (wp_setDaemonPid false pid) (fun _ p' h' => ?_) fun _ _ _ => trivial
    exact .records (not_not.mp h) (by simpa using h'.2.1) h'.2.2.1
  | dies pid =>
    rw [exec, Exec.wp_bind, Exec.wp_get, Exec.wp_ite]
    refine ⟨fun _ => (Exec.wp_throw _).mpr trivial, fun h => ?_⟩
    rw [Exec.wp_bind, Exec.wp_set, Exec.wp_pure]
    exact .dies rfl rfl
  | begins pid =>
    rw [exec, Exec.wp_bind, Exec.wp_get, Exec.wp_ite]
    refine ⟨fun _ => (Exec.wp_throw _).mpr trivial, fun h => ?_⟩
    rw [Exec.wp_bind, Exec.wp_set, Exec.wp_pure]
    exact .begins (not_not.mp h) rfl rfl

theorem LifeAct.step_cases {a : LifeAct} {p p' : Process Machine} (h : a.step p = some p') :
    LifeStep p a p' := by
  rw [step] at h
  split at h
  · rename_i hrun
    cases h
    exact Exec.wp_run_ok (Q := fun _ q => LifeStep p a q) (wp_exec a p) hrun
  · cases h

end calls

/-! ## One daemon -/

/-- The recorded pid is that of the one daemon that runs, or 0 when none does. -/
structure OneDaemon (p : Process Machine) : Prop where
  running : ∀ d, p.world.role d = .running ↔ d = recordedPid p.files ∧ d ≠ 0
  starting : ∀ d, p.world.role d = .starting → d ≠ 0

/-- The steps that leave it so: no daemon records itself beside another, a running one does
not end by itself, and the pid file of a stopped one can be written. -/
def LifeAct.Orderly (p : Process Machine) : LifeAct → Prop
  | warmup _ | begins _ => True
  | stop _ setFails | restart _ setFails _ _ =>
    setFails = false ∨ ∀ d, p.world.role d ≠ .running
  | records _ => ∀ d, p.world.role d ≠ .running
  | dies pid => p.world.role pid ≠ .running

section one

variable {p p' q : Process Machine}

theorem OneDaemon.recorded_eq_zero (h : OneDaemon p) :
    recordedPid p.files = 0 ↔ ∀ d, p.world.role d ≠ .running := by
  constructor
  · intro hzero d hd
    obtain ⟨hrecorded, hne⟩ := (h.running d).mp hd
    exact hne (hrecorded.trans hzero)
  · intro hnone
    by_contra hne
    exact hnone _ ((h.running _).mpr ⟨rfl, hne⟩)

theorem OneDaemon.congr (h : OneDaemon p) (hrecorded : recordedPid q.files = recordedPid p.files)
    (hworld : q.world = p.world) : OneDaemon q :=
  ⟨fun d => by rw [hworld, hrecorded]; exact h.running d,
    fun d => by rw [hworld]; exact h.starting d⟩

/-- A stop keeps the order unless it kills the daemon and cannot write that down. -/
theorem OneDaemon.stop_iff (h : OneDaemon p) {setFails : Bool} {rc : Int}
    (hstop : StopEnds setFails p rc q) :
    OneDaemon q ↔ setFails = false ∨ ∀ d, p.world.role d ≠ .running := by
  cases hstop with
  | nobody hrc hnobody hrecorded hworld =>
    refine iff_of_true (h.congr hrecorded hworld) (.inr (h.recorded_eq_zero.mp ?_))
    by_contra hne
    have hrunning := (h.running _).mpr ⟨rfl, hne⟩
    rcases hnobody with hzero | hfree
    · exact hne hzero
    · rw [hfree] at hrunning
      cases hrunning
  | unrecorded hrc hfails hpid _ hrecorded hworld =>
    refine iff_of_false (fun hq => ?_) ?_
    · have hrunning := (hq.running (recordedPid p.files)).mpr ⟨hrecorded.symm, hpid⟩
      rw [hworld, Machine.role_set, if_pos rfl] at hrunning
      cases hrunning
    · rintro (hf | hnone)
      · rw [hfails] at hf
        cases hf
      · exact hpid (h.recorded_eq_zero.mpr hnone)
  | stopped hrc hfails hpid _ hrecorded hworld =>
    refine iff_of_true ⟨fun d => iff_of_false (fun hd => ?_) fun hd => ?_, fun d hd => ?_⟩
      (.inl hfails)
    · rcases hworld.ends d with he | he <;> rw [he] at hd
      · rw [Machine.role_set] at hd
        split at hd
        · cases hd
        · rename_i hne
          exact hne ((h.running d).mp hd).1
      · cases hd
    · exact hd.2 (hd.1.trans hrecorded)
    · rcases hworld.ends d with he | he <;> rw [he] at hd
      · rw [Machine.role_set] at hd
        split at hd
        · cases hd
        · exact h.starting d hd
      · cases hd

/-- A launch changes nothing of the order: the new daemon does not run yet. -/
theorem OneDaemon.launched {pid : BitVec 32} (h : OneDaemon p) (hlaunch : Launched pid p p') :
    OneDaemon p' := by
  refine ⟨fun d => ?_, fun d hd => ?_⟩
  · rw [hlaunch.world, hlaunch.recorded, Machine.role_set]
    split
    · rename_i hd
      refine iff_of_false (by decide) fun hrecorded => ?_
      have hrunning := (h.running d).mpr hrecorded
      rw [hd, hlaunch.wasFree] at hrunning
      cases hrunning
    · exact h.running d
  · rw [hlaunch.world, Machine.role_set] at hd
    split at hd
    · rename_i hd'
      exact hd' ▸ hlaunch.positive
    · exact h.starting d hd

theorem OneDaemon.records_iff {pid : BitVec 32} (h : OneDaemon p)
    (hrole : p.world.role pid = .starting) (hrecorded : recordedPid p'.files = pid)
    (hworld : p'.world = p.world.set pid .running) :
    OneDaemon p' ↔ ∀ d, p.world.role d ≠ .running := by
  constructor
  · intro h' d hd
    have hne : d ≠ pid := by
      rintro rfl
      rw [hrole] at hd
      cases hd
    have hd' : p'.world.role d = .running := by rw [hworld, Machine.role_set, if_neg hne, hd]
    exact hne (((h'.running d).mp hd').1.trans hrecorded)
  · intro hnone
    refine ⟨fun d => ?_, fun d hd => ?_⟩
    · rw [hworld, hrecorded, Machine.role_set]
      split
      · rename_i hd
        exact iff_of_true rfl ⟨hd, hd ▸ h.starting pid hrole⟩
      · rename_i hd
        exact iff_of_false (hnone d) fun hd' => hd hd'.1
    · rw [hworld, Machine.role_set] at hd
      split at hd
      · cases hd
      · exact h.starting d hd

/-- A process of another kind in a place where no daemon runs. -/
theorem OneDaemon.set_iff {pid : BitVec 32} {r : Role} (h : OneDaemon p) (hr : r ≠ .running)
    (hr' : r ≠ .starting) (hrecorded : recordedPid p'.files = recordedPid p.files)
    (hworld : p'.world = p.world.set pid r) : OneDaemon p' ↔ p.world.role pid ≠ .running := by
  constructor
  · intro h' hrunning
    have hpid := (h.running pid).mp hrunning
    rw [← hrecorded] at hpid
    have := (h'.running pid).mpr hpid
    rw [hworld, Machine.role_set, if_pos rfl] at this
    exact hr this
  · intro hnot
    refine ⟨fun d => ?_, fun d hd => ?_⟩
    · rw [hworld, hrecorded, Machine.role_set]
      split
      · rename_i hd
        exact iff_of_false hr fun hpid => hnot (hd ▸ (h.running d).mpr hpid)
      · exact h.running d
    · rw [hworld, Machine.role_set] at hd
      split at hd
      · exact absurd hd hr'
      · exact h.starting d hd

/-- **A step keeps the order exactly when it is orderly.** -/
theorem OneDaemon.step_iff {a : LifeAct} (h : OneDaemon p)
    (hs : a.step p = some p') : OneDaemon p' ↔ a.Orderly p := by
  have hstop_iff : ∀ {jobs : Table Job} {setFails : Bool} {rc : Int} {q : Process Machine},
      StopEnds setFails { p with jobs := jobs } rc q →
        (OneDaemon q ↔ setFails = false ∨ ∀ d, p.world.role d ≠ .running) := fun {jobs} _ _ _ hq =>
    OneDaemon.stop_iff (h.congr rfl rfl : OneDaemon { p with jobs := jobs }) hq
  cases LifeAct.step_cases hs with
  | warmup hlaunch => exact iff_of_true (h.launched hlaunch) trivial
  | stop hstop => exact hstop_iff hstop
  | keptDown hrc hstop => exact hstop_iff hstop
  | restarted hstop hlaunch =>
    have hfails := hstop.recorded_of_zero
    exact iff_of_true (((hstop_iff hstop).mpr (.inl hfails)).launched hlaunch) (.inl hfails)
  | records hrole hrecorded hworld => exact h.records_iff hrole hrecorded hworld
  | dies hrecorded hworld => exact h.set_iff (by decide) (by decide) hrecorded hworld
  | begins hrole hrecorded hworld =>
    refine iff_of_true ((h.set_iff (by decide) (by decide) hrecorded hworld).mpr ?_) trivial
    rw [hrole]
    decide

/-- **One daemon, exactly**: from a state with one recorded daemon, or none, every state of a
run is such a state if and only if no daemon records itself beside a running one, none that
runs ends by itself, and every stopped one is written down. -/
theorem one_daemon_iff (p : Process Machine) (as : List LifeAct)
    (h : OneDaemon p) :
    Every (LifeAct.step) (fun _ _ p' => OneDaemon p') as p ↔
      Every (LifeAct.step) (fun p a _ => a.Orderly p) as p :=
  every_inv_iff (fun h hs => h.step_iff hs) as h

end one

/-- A process of mrn with the given pid file, beside the given processes. -/
def machineWith (recorded : Bytes) (role : BitVec 32 → Role) : Process Machine where
  files := FileStore.put (fun _ => none) (.file .jobDaemonPid) recorded
  world := ⟨role⟩
  services := .blank 20 20
  jobs := .blank 4 4
  envs := .blank 20 20
  limits := .blank 4 4
  reformatState := true
  reformatLimits := false

/-- A machine without processes: a launch, its recording, and a stop. -/
theorem one_daemon_iff_machineWith :
    Every LifeAct.step (fun _ _ p' => OneDaemon p')
        [.warmup 7, .records 7, .stop (.blank 4 4) false] (machineWith [] fun _ => .free) ↔
      Every LifeAct.step (fun p a _ => a.Orderly p)
        [.warmup 7, .records 7, .stop (.blank 4 4) false] (machineWith [] fun _ => .free) :=
  one_daemon_iff _ _ ⟨fun d => iff_of_false (by simp [machineWith]) fun h => h.2 h.1,
    fun d hd => by simp [machineWith] at hd⟩

/-! ## Daemons out of reach -/

section reach

variable {p p' : Process Machine}

/-- It runs, and another pid is recorded. -/
structure Forgotten (d : BitVec 32) (p : Process Machine) : Prop where
  running : p.world.role d = .running
  other : recordedPid p.files ≠ d
  positive : d ≠ 0

/-- The daemon does not end by itself, and it is not the process of a job once started. -/
def LifeAct.Spares (d : BitVec 32) : LifeAct → Prop
  | stop jobs _ | restart jobs _ _ _ => ∀ j ∈ jobs.items, j.pid ≠ d
  | dies pid => pid ≠ d
  | warmup _ | records _ | begins _ => True

theorem Forgotten.stop {d : BitVec 32} {setFails : Bool} {rc : Int} (h : Forgotten d p)
    (hjobs : ∀ j ∈ p.jobs.items, j.pid ≠ d) (hstop : StopEnds setFails p rc p') :
    Forgotten d p' := by
  have hother : d ≠ recordedPid p.files := fun he => h.other he.symm
  cases hstop with
  | nobody _ _ hrecorded hworld =>
    exact ⟨by rw [hworld]; exact h.running, by rw [hrecorded]; exact h.other, h.positive⟩
  | unrecorded _ _ _ _ hrecorded hworld =>
    refine ⟨?_, by rw [hrecorded]; exact h.other, h.positive⟩
    rw [hworld, Machine.role_set, if_neg hother]
    exact h.running
  | stopped _ _ _ _ hrecorded hworld =>
    refine ⟨?_, by rw [hrecorded]; exact h.positive.symm, h.positive⟩
    rw [hworld.spares d hjobs, Machine.role_set, if_neg hother]
    exact h.running

theorem Forgotten.set {d pid : BitVec 32} {r : Role} (h : Forgotten d p) (hpid : d ≠ pid)
    (hrecorded : recordedPid p'.files ≠ d) (hworld : p'.world = p.world.set pid r) :
    Forgotten d p' :=
  ⟨by rw [hworld, Machine.role_set, if_neg hpid]; exact h.running, hrecorded, h.positive⟩

theorem Forgotten.ne {d pid : BitVec 32} (h : Forgotten d p) (hpid : p.world.role pid ≠ .running) :
    d ≠ pid := fun he => hpid (he ▸ h.running)

theorem Forgotten.launched {d pid : BitVec 32} (h : Forgotten d p)
    (hlaunch : Launched pid p p') : Forgotten d p' :=
  h.set (h.ne (by rw [hlaunch.wasFree]; decide)) (by rw [hlaunch.recorded]; exact h.other)
    hlaunch.world

theorem Forgotten.step {d : BitVec 32} {a : LifeAct} (h : Forgotten d p) (ha : a.Spares d)
    (hs : a.step p = some p') : Forgotten d p' := by
  have hstop : ∀ {jobs : Table Job} {setFails : Bool} {rc : Int} {q : Process Machine},
      (∀ j ∈ jobs.items, j.pid ≠ d) → StopEnds setFails { p with jobs := jobs } rc q →
        Forgotten d q := fun {jobs} _ _ _ hj hq =>
    Forgotten.stop (p := { p with jobs := jobs }) ⟨h.running, h.other, h.positive⟩ hj hq
  cases LifeAct.step_cases hs with
  | warmup hlaunch => exact h.launched hlaunch
  | stop hq => exact hstop ha hq
  | keptDown _ hq => exact hstop ha hq
  | restarted hq hlaunch => exact (hstop ha hq).launched hlaunch
  | records hrole hrecorded hworld =>
    have hne := h.ne (by rw [hrole]; decide)
    exact h.set hne (by rw [hrecorded]; exact hne.symm) hworld
  | dies hrecorded hworld =>
    exact h.set (Ne.symm ha) (by rw [hrecorded]; exact h.other) hworld
  | begins hrole hrecorded hworld =>
    exact h.set (h.ne (by rw [hrole]; decide)) (by rw [hrecorded]; exact h.other) hworld

/-- **A daemon whose pid was overwritten cannot be stopped**: as long as it does not end by
itself and its pid is not that of a job once started, it runs on through every run of the
commands, and its pid is never recorded again. -/
theorem forgotten_runs_on (d : BitVec 32) (p : Process Machine)
    (as : List LifeAct) (h : Forgotten d p)
    (hspares : Every (LifeAct.step) (fun _ a _ => a.Spares d) as p) :
    Every (LifeAct.step) (fun _ _ p' => Forgotten d p') as p :=
  every_of_inv (fun h ha hs => ⟨h.step ha hs, h.step ha hs⟩) as h hspares

/-- Daemon 7 runs, but daemon 8 was recorded after it. -/
theorem forgotten_runs_on_machineWith :
    Every LifeAct.step (fun _ _ p' => Forgotten 7 p')
      [.stop (.blank 4 4) false, .restart (.blank 4 4) false 9 0]
      (machineWith [56] fun d => if d = 7 ∨ d = 8 then .running else .free) := by
  refine forgotten_runs_on 7 _ _ ⟨by decide, by decide, by decide⟩ ?_
  have hnone : ∀ j ∈ (Table.blank 4 4 : Table Job).items, j.pid ≠ 7 := fun j hj => by cases hj
  exact every_cons.mpr fun _ _ => ⟨hnone, every_cons.mpr fun _ _ => ⟨hnone, trivial⟩⟩

/-- It is recorded, and no process has its pid. -/
structure Dead (d : BitVec 32) (p : Process Machine) : Prop where
  recorded : recordedPid p.files = d
  free : p.world.role d = .free
  positive : d ≠ 0

/-- No daemon records itself, and the pid is not given to a new process. -/
def LifeAct.Leaves (d : BitVec 32) : LifeAct → Prop
  | warmup pid | begins pid => pid ≠ d
  | records _ => False
  | stop _ _ | restart _ _ _ _ | dies _ => True

def LifeAct.Stops : LifeAct → Prop
  | stop _ _ | restart _ _ _ _ => True
  | warmup _ | records _ | dies _ | begins _ => False

def LifeAct.Fails (a : LifeAct) (p : Process Machine) : Prop :=
  Exec.wp (a.exec) (fun rc _ => rc ≠ 0) (fun _ _ => False) p

theorem Dead.stop {d : BitVec 32} {setFails : Bool} {rc : Int} (h : Dead d p)
    (hstop : StopEnds setFails p rc p') : rc ≠ 0 ∧ Dead d p' := by
  cases hstop with
  | nobody hrc _ hrecorded hworld =>
    exact ⟨hrc, hrecorded.trans h.recorded, by rw [hworld]; exact h.free, h.positive⟩
  | unrecorded _ _ _ hlive => exact absurd (by rw [h.recorded]; exact h.free) hlive
  | stopped _ _ _ hlive => exact absurd (by rw [h.recorded]; exact h.free) hlive

theorem Dead.fails {d : BitVec 32} {a : LifeAct} (h : Dead d p) (ha : a.Stops) :
    a.Fails p := by
  have hstop : ∀ (jobs : Table Job) (setFails : Bool),
      Exec.wp (stopJobDaemon machineCalls .reads setFails) (fun rc _ => rc ≠ 0)
        (fun _ _ => False) { p with jobs := jobs } := fun jobs setFails =>
    Exec.wp_mono (wp_stopJobDaemon setFails _)
      (fun _ _ hq => (Dead.stop (p := { p with jobs := jobs })
        ⟨h.recorded, h.free, h.positive⟩ hq).1) fun _ _ he => he
  cases a with
  | stop jobs setFails =>
    rw [LifeAct.Fails, LifeAct.exec, Exec.wp_bind, Exec.wp_modify]
    exact hstop jobs setFails
  | restart jobs setFails pid leftover =>
    rw [LifeAct.Fails, LifeAct.exec, Exec.wp_bind, Exec.wp_modify, restartJobDaemon, Exec.wp_bind]
    refine Exec.wp_mono (hstop jobs setFails) (fun rc q hrc => ?_) fun _ _ he => he
    rw [if_pos hrc, Exec.wp_pure]
    decide
  | warmup | records | dies | begins => exact ha.elim

theorem Dead.set {d pid : BitVec 32} {r : Role} (h : Dead d p) (hset : d = pid → r = .free)
    (hrecorded : recordedPid p'.files = recordedPid p.files)
    (hworld : p'.world = p.world.set pid r) : Dead d p' := by
  refine ⟨hrecorded.trans h.recorded, ?_, h.positive⟩
  rw [hworld, Machine.role_set]
  split
  · rename_i hd
    exact hset hd
  · exact h.free

theorem Dead.step {d : BitVec 32} {a : LifeAct} (h : Dead d p) (ha : a.Leaves d)
    (hs : a.step p = some p') : Dead d p' := by
  have hstop : ∀ {jobs : Table Job} {setFails : Bool} {rc : Int} {q : Process Machine},
      StopEnds setFails { p with jobs := jobs } rc q → rc ≠ 0 ∧ Dead d q := fun {jobs} _ _ _ hq =>
    Dead.stop (p := { p with jobs := jobs }) ⟨h.recorded, h.free, h.positive⟩ hq
  cases LifeAct.step_cases hs with
  | warmup hlaunch =>
    exact h.set (fun hd => absurd hd.symm ha) hlaunch.recorded hlaunch.world
  | stop hq => exact (hstop hq).2
  | keptDown _ hq => exact (hstop hq).2
  | restarted hq _ => exact absurd rfl (hstop hq).1
  | records => exact ha.elim
  | dies hrecorded hworld => exact h.set (fun _ => rfl) hrecorded hworld
  | begins _ hrecorded hworld => exact h.set (fun hd => absurd hd.symm ha) hrecorded hworld

/-- **A daemon that died stays recorded**: until another daemon records itself or its pid is
given to a new process, every `stop-jobs` and every `restart-jobs` fails, and changes
nothing of it. -/
theorem dead_stays_recorded (d : BitVec 32) (p : Process Machine)
    (as : List LifeAct) (h : Dead d p)
    (hleaves : Every (LifeAct.step) (fun _ a _ => a.Leaves d) as p) :
    Every (LifeAct.step) (fun p a p' => Dead d p' ∧ (a.Stops → a.Fails p)) as p :=
  every_of_inv (fun h ha hs => ⟨h.step ha hs, h.step ha hs, fun hstops => h.fails hstops⟩) as h
    hleaves

/-- Daemon 8 was recorded, and has died. -/
theorem dead_stays_recorded_machineWith :
    Every LifeAct.step (fun p a p' => Dead 8 p' ∧ (a.Stops → a.Fails p))
      [.stop (.blank 4 4) false, .restart (.blank 4 4) false 9 0]
      (machineWith [56] fun _ => .free) := by
  refine dead_stays_recorded 8 _ _ ⟨by decide, by decide, by decide⟩ ?_
  exact every_cons.mpr fun _ _ => ⟨trivial, every_cons.mpr fun _ _ => ⟨trivial, trivial⟩⟩

end reach

end MiniRunner.Lifecycle
