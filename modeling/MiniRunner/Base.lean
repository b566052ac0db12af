import MiniRunner.Clib.Decimal
import MiniRunner.Clib.FileStore
import MiniRunner.Clib.Block

/-!
# The data model

The records of `base/structure.h`, the internal files of `base/config.h`, and the
state of one process of the program. A process has the files, the four tables
that `main.c` keeps as globals, the two flags its destructor reads, and a world
`W` that everything outside the program lives in.

The calls into that world (git, folders, cgroups, processes, the clock) are the
fields of `Calls W`: each one may answer anything and may move the world, so a
statement for every `W`, every `Calls W` and every `w : W` ranges over every
outcome of every call. File operations on the internal files succeed.
-/

namespace MiniRunner

open Clib

/-! ## Records -/

structure Service where
  githubRepo : CStr
  name : CStr
  pid : BitVec 32
  cloned : Bool
  deriving DecidableEq

structure Job where
  name : CStr
  runnableFile : CStr
  lastTimeRunned : BitVec 64
  secondsInterval : BitVec 64
  pid : BitVec 32
  deriving DecidableEq

structure Env where
  name : CStr
  key : CStr
  value : CStr
  deriving DecidableEq

structure Limit where
  name : CStr
  cpu : BitVec 64
  memory : BitVec 128
  deriving DecidableEq

/-- The block handed to `execve`: a cell is uninitialised (`none`), NULL or a string. -/
structure EnvToArg where
  args : List (Option (Option CStr))
  nums : Nat
  capacity : Nat
  deriving DecidableEq

/-- What `runService` and `warmService` hand to `runthread`; `args` is `none` where
the field was never written. -/
structure Param where
  service : Nat
  command : CStr
  name : CStr
  args : Option EnvToArg
  attach : Bool
  deriving DecidableEq

/-! ## Initial scales -/

def initialScaleSizeOfServices : Nat := 4
def initialScaleSizeOfJobs : Nat := 4
def initialScaleOfEnv : Nat := 20
def initialScaleOfResLimit : Nat := 4
/-- `sizeof(void*)`. -/
def pointerSize : Nat := 8

/-! ## Internal files -/

inductive Store where
  | env | jobCpuLimit | jobDaemonPid | jobMemLimit | jobs | jobsSync | limits | projects
  | updateStatus
  deriving DecidableEq, Repr

/-- `/usr/lib/mrn/data` and `/usr/lib/mrn/backup`. -/
inductive Place where
  | data | backup
  deriving DecidableEq, Repr

/-- A path of `base/config.h`; `copy` marks the `.backup` file beside a store. -/
structure Path where
  place : Place
  store : Store
  copy : Bool
  deriving DecidableEq, Repr

namespace Path

/-- `__FILE_X`. -/
abbrev file (s : Store) : Path := ⟨.data, s, false⟩
/-- `__FILE_X_COPY`. -/
abbrev fileCopy (s : Store) : Path := ⟨.data, s, true⟩
/-- `__FILE_X_BACKUP`. -/
abbrev fileBackup (s : Store) : Path := ⟨.backup, s, false⟩
end Path

abbrev Files := FileStore Path

/-! ## The world outside -/

/-- How the clone child of `cloneRepo` ends, as its parent sees it. -/
inductive Cloned where
  /-- The child wrote `s`, or nothing at all. -/
  | done
  /-- The child wrote `f`. -/
  | failed
  /-- The pipe failed, or the child left with a nonzero exit status. -/
  | gaveUp
  deriving DecidableEq, Repr

/-- What the parent side of `runthread` gets from its child. -/
inductive Launch where
  | noPipe
  | noAnswer
  | answered (pid : BitVec 32)
  deriving DecidableEq, Repr

/-- How far the thread of a start is when the start returns: through, or with a child whose
pid it has not recorded, or still before its fork. -/
inductive Lag where
  | through | forked | waiting
  deriving DecidableEq, Repr

/-- The two signals `kill` is called with. -/
inductive Signal where
  | probe
  | sigkill
  deriving DecidableEq, Repr

/-- The memory part of a limit, at the width of its `--type`. -/
inductive Amount where
  | standard (bytes : BitVec 32)
  | custom (bytes : BitVec 64)
  | extreme (bytes : BitVec 128)
  deriving DecidableEq

/-- The calls that leave the program. Return codes are the C ones: 0 is success. -/
structure Calls (W : Type) where
  /-- `git clone` of a repo into the folder of a name. -/
  clone : CStr → CStr → W → Cloned × W
  folderExists : CStr → W → Bool × W
  deleteFolderRecursievly : CStr → W → Int × W
  /-- `rename` of one service folder to another. -/
  renameFolder : CStr → CStr → W → Int × W
  kill : Signal → BitVec 32 → W → Int × W
  /-- Take a stopped service out of its cgroup (`updateCgrp`). -/
  updateCgrp : CStr → W → Int × W
  /-- Put a restarted process into the cgroup (`updateCgroup`). -/
  updateCgroup : CStr → BitVec 32 → W → Int × W
  renameCgrp : CStr → CStr → BitVec 32 → W → Int × W
  /-- `pthread_create`. -/
  createThread : W → Int × W
  /-- `pthread_detach`. -/
  detachThread : W → Int × W
  /-- The pipe, the fork and the single read of `runthread`. -/
  launch : Param → W → Launch × W
  /-- How far the thread is when a start returns that did not wait for it. -/
  lag : W → Lag × W
  /-- Whether the `backup` of an attached start comes after the pid was recorded; the start
  `pauses` until a SIGINT, or an earlier start of the process has seen one. -/
  interruptLast : (pauses : Bool) → W → Bool × W
  /-- Write the cpu quota, and the memory limit if asked for, into the service's cgroup. -/
  limitCpuAndMemory : CStr → BitVec 32 → BitVec 64 → Bool → Amount → W → Int × W
  /-- Write the memory limit into the service's cgroup. -/
  limitMm : CStr → BitVec 32 → Amount → W → Int × W
  fileExists : CStr → W → Bool × W
  /-- `time(NULL)`. -/
  time : W → BitVec 64 × W

/-- A world without state in which every call succeeds; a launch answers `pid`. -/
def Calls.allWell (pid : BitVec 32) : Calls Unit where
  clone _ _ _ := (.done, ())
  folderExists _ _ := (true, ())
  deleteFolderRecursievly _ _ := (0, ())
  renameFolder _ _ _ := (0, ())
  kill _ _ _ := (0, ())
  updateCgrp _ _ := (0, ())
  updateCgroup _ _ _ := (0, ())
  renameCgrp _ _ _ _ := (0, ())
  createThread _ := (0, ())
  detachThread _ := (0, ())
  launch _ _ := (.answered pid, ())
  lag _ := (.through, ())
  interruptLast _ _ := (false, ())
  limitCpuAndMemory _ _ _ _ _ _ := (0, ())
  limitMm _ _ _ _ := (0, ())
  fileExists _ _ := (true, ())
  time _ := (0, ())

/-- A world without state in which every call fails. -/
def Calls.allFail : Calls Unit where
  clone _ _ _ := (.failed, ())
  folderExists _ _ := (true, ())
  deleteFolderRecursievly _ _ := (-1, ())
  renameFolder _ _ _ := (-1, ())
  kill _ _ _ := (-1, ())
  updateCgrp _ _ := (-1, ())
  updateCgroup _ _ _ := (-1, ())
  renameCgrp _ _ _ _ := (-1, ())
  createThread _ := (-1, ())
  detachThread _ := (-1, ())
  launch _ _ := (.noPipe, ())
  lag _ := (.through, ())
  interruptLast _ _ := (false, ())
  limitCpuAndMemory _ _ _ _ _ _ := (-1, ())
  limitMm _ _ _ _ := (-1, ())
  fileExists _ _ := (false, ())
  time _ := (0, ())

/-- The answers of a world without state, in a world whose state they leave alone. -/
def Calls.within (sys : Calls Unit) (W : Type) : Calls W where
  clone githubRepo name w := ((sys.clone githubRepo name ()).1, w)
  folderExists name w := ((sys.folderExists name ()).1, w)
  deleteFolderRecursievly name w := ((sys.deleteFolderRecursievly name ()).1, w)
  renameFolder beforeName newName w := ((sys.renameFolder beforeName newName ()).1, w)
  kill sig pid w := ((sys.kill sig pid ()).1, w)
  updateCgrp name w := ((sys.updateCgrp name ()).1, w)
  updateCgroup name pid w := ((sys.updateCgroup name pid ()).1, w)
  renameCgrp name newName pid w := ((sys.renameCgrp name newName pid ()).1, w)
  createThread w := ((sys.createThread ()).1, w)
  detachThread w := ((sys.detachThread ()).1, w)
  launch params w := ((sys.launch params ()).1, w)
  lag w := ((sys.lag ()).1, w)
  interruptLast pauses w := ((sys.interruptLast pauses ()).1, w)
  limitCpuAndMemory name pid cpu limitMemory memBytes w :=
    ((sys.limitCpuAndMemory name pid cpu limitMemory memBytes ()).1, w)
  limitMm name pid memBytes w := ((sys.limitMm name pid memBytes ()).1, w)
  fileExists name w := ((sys.fileExists name ()).1, w)
  time w := ((sys.time ()).1, w)

/-! ## Process state -/

/-- The state of one process: the files, the world, the globals of `main.c`, and the `pidSet`
and `running` of `run_service.c`, which are 0 when a process begins. -/
structure Process (W : Type) where
  files : Files
  world : W
  services : Table Service
  jobs : Table Job
  envs : Table Env
  limits : Table Limit
  reformatState : Bool
  reformatLimits : Bool
  pidSet : Bool := false
  running : Bool := false

namespace Process

variable {W α : Type}

def call (f : W → α × W) : Exec (Process W) α := fun p =>
  let (a, w) := f p.world
  .ok a { p with world := w }

def onServices (f : Table Service → Except Halt (α × Table Service)) : Exec (Process W) α :=
  Exec.onPart (·.services) (fun p t => { p with services := t }) f

def onJobs (f : Table Job → Except Halt (α × Table Job)) : Exec (Process W) α :=
  Exec.onPart (·.jobs) (fun p t => { p with jobs := t }) f

def onEnvs (f : Table Env → Except Halt (α × Table Env)) : Exec (Process W) α :=
  Exec.onPart (·.envs) (fun p t => { p with envs := t }) f

def onLimits (f : Table Limit → Except Halt (α × Table Limit)) : Exec (Process W) α :=
  Exec.onPart (·.limits) (fun p t => { p with limits := t }) f

/-- A step on the files, which a halt leaves as far as they were written. -/
def onFiles (x : Exec Files α) : Exec (Process W) α := fun p =>
  match x.run p.files with
  | .ok a fs => .ok a { p with files := fs }
  | .error e fs => .error e { p with files := fs }

@[simp] theorem wp_call {f : W → α × W} {Q : α → Process W → Prop} {E : Halt → Process W → Prop}
    {p : Process W} :
    Exec.wp (call f) Q E p ↔ Q (f p.world).1 { p with world := (f p.world).2 } := Exec.wp_total

@[simp] theorem wp_onFiles {x : Exec Files α} {Q : α → Process W → Prop}
    {E : Halt → Process W → Prop} {p : Process W} :
    Exec.wp (onFiles x) Q E p ↔
      Exec.wp x (fun a fs => Q a { p with files := fs }) (fun e fs => E e { p with files := fs })
        p.files := by
  simp only [Exec.wp, EStateM.run, onFiles]
  cases x p.files <;> rfl

section steps

variable {Q : α → Process W → Prop} {E : Halt → Process W → Prop} {p : Process W}

theorem wp_onServices {f : Table Service → Except Halt (α × Table Service)} :
    Exec.wp (onServices f) Q E p ↔
      match f p.services with
      | .ok r => Q r.1 { p with services := r.2 }
      | .error e => E e p := by
  rw [onServices, Exec.wp_onPart]
  cases f p.services <;> rfl

theorem wp_onJobs {f : Table Job → Except Halt (α × Table Job)} :
    Exec.wp (onJobs f) Q E p ↔
      match f p.jobs with
      | .ok r => Q r.1 { p with jobs := r.2 }
      | .error e => E e p := by
  rw [onJobs, Exec.wp_onPart]
  cases f p.jobs <;> rfl

theorem wp_onEnvs {f : Table Env → Except Halt (α × Table Env)} :
    Exec.wp (onEnvs f) Q E p ↔
      match f p.envs with
      | .ok r => Q r.1 { p with envs := r.2 }
      | .error e => E e p := by
  rw [onEnvs, Exec.wp_onPart]
  cases f p.envs <;> rfl

theorem wp_onLimits {f : Table Limit → Except Halt (α × Table Limit)} :
    Exec.wp (onLimits f) Q E p ↔
      match f p.limits with
      | .ok r => Q r.1 { p with limits := r.2 }
      | .error e => E e p := by
  rw [onLimits, Exec.wp_onPart]
  cases f p.limits <;> rfl

end steps

end Process

end MiniRunner
