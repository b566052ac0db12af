import MiniRunner.Argv.Formats
import MiniRunner.Main

/-!
# The loop of `main` over its arguments

`main` looks at every token after the program's name, one after the other, and compares it
with the command words. A branch reads its operands from the tokens that follow and does not
move the loop past them, so the next round looks at the first of them.

What a branch calls is an `Operation`, and what the call does is left to a `Program`: any
state, any return code, any halt. The state of a run keeps the words that were matched and
the operations that were called, in order.
-/

namespace MiniRunner.Argv

open Clib

/-! ## Command words -/

inductive Word where
  | help | version | max | add | remove | run | stop | list | find | update | neglectUpdates
  | restart | rename | setLimit | resUsage | resLimit | addJob | removeJob | warmupJobs
  | listJobs | config | showJobLimit | restartJobs | stopJobs | jobStatus | timeShift | addEnv
  | showEnv | removeEnv | updateEnv
  deriving DecidableEq, Repr

def Word.texts : Word → List CStr
  | help => [.ofText "--help", .ofText "-h"]
  | version => [.ofText "--version", .ofText "-v"]
  | max => [.ofText "-m", .ofText "--max"]
  | add => [.ofText "add"]
  | remove => [.ofText "remove"]
  | run => [.ofText "run"]
  | stop => [.ofText "stop"]
  | list => [.ofText "list"]
  | find => [.ofText "find"]
  | update => [.ofText "update"]
  | neglectUpdates => [.ofText "neglect-updates"]
  | restart => [.ofText "restart"]
  | rename => [.ofText "rename"]
  | setLimit => [.ofText "set-limit"]
  | resUsage => [.ofText "res-usage"]
  | resLimit => [.ofText "res-limit"]
  | addJob => [.ofText "add-job"]
  | removeJob => [.ofText "remove-job"]
  | warmupJobs => [.ofText "warmup-jobs"]
  | listJobs => [.ofText "list-jobs"]
  | config => [.ofText "config"]
  | showJobLimit => [.ofText "show-job-limit"]
  | restartJobs => [.ofText "restart-jobs"]
  | stopJobs => [.ofText "stop-jobs"]
  | jobStatus => [.ofText "job-status"]
  | timeShift => [.ofText "time-shift"]
  | addEnv => [.ofText "add-env"]
  | showEnv => [.ofText "show-env"]
  | removeEnv => [.ofText "remove-env"]
  | updateEnv => [.ofText "update-env"]

def Word.text (w : Word) : CStr := w.texts.headI

/-- The words in the order of the comparisons. -/
def Word.all : List Word :=
  [help, version, max, add, remove, run, stop, list, find, update, neglectUpdates, restart,
    rename, setLimit, resUsage, resLimit, addJob, removeJob, warmupJobs, listJobs, config,
    showJobLimit, restartJobs, stopJobs, jobStatus, timeShift, addEnv, showEnv, removeEnv,
    updateEnv]

/-- The branch that a token takes, if any. -/
def Word.ofToken? (token : CStr) : Option Word := Word.all.find? fun w => decide (token ∈ w.texts)

/-! ## Operations -/

/-- What `main` calls, and the two operations that the documentation has besides. -/
inductive Operation (D : Type) where
  | displayHelp
  | displayVersion
  | reallocServices (numberofProcesses : BitVec 32)
  | addProject (githubLink nickName : CStr)
  | normalDeleteServices (serviceName : Option CStr)
  | runService (name : CStr) (bash : Option CStr) (attach : Bool)
  | stopService (name : CStr)
  | listServices
  | search (searchName : CStr) (sort : Bool)
  | updateService (name : CStr) (stop : Bool)
  | neglectUpdate
  | restartService (serviceName : CStr) (bash : Option CStr) (attach : Bool)
  | renameService (oldName newName : CStr)
  | setCpuResourceLimit (serviceName : CStr) (cpuLimit : D) (limitMemory : Bool)
      (memBytes : Amount)
  | setMemoryLimit (serviceName : CStr) (memBytes : Amount)
  | showRsUsage (serviceName : CStr)
  | showRsLimit (serviceName : CStr)
  | createJob (jobName runnableFile : CStr) (timeInSeconds : BitVec 64)
  | removeJob (jobName : CStr)
  | launchDaemon
  | showJobs
  | configJobRes (memLimit : BitVec 128) (cpuLimit : BitVec 64) (limitMemory limitCpu : Bool)
  | showJobDaemonRsLimits
  | restartJobDaemon
  | stopJobDaemon
  | showDaemonStatus
  | createTimeShift
  | applyTimeShift
  | addEnv (name key value : CStr)
  | showEnv (name key : CStr)
  | removeEnv (name key : CStr)
  | updateEnv (name key value : CStr)
  /-- Stop all running services, which no branch does. -/
  | stopAll
  /-- Run a script outside of any service, which no branch does. -/
  | runBash (bash : CStr)
  deriving DecidableEq

/-- What the operations and the two questions of `main` do. -/
structure Program (D σ : Type) where
  perform : Operation D → Exec σ Int
  fileExists : CStr → Exec σ Bool
  /-- `scanf("%s", ..)`. -/
  answer : Exec σ (Option CStr)
  /-- `reformatLimits = true`. -/
  markLimits : σ → σ
  /-- `reformatState = false`. -/
  keepState : σ → σ

/-- The state of a branch: the operations called so far. -/
structure Called (D σ : Type) where
  operations : List (Operation D)
  state : σ

/-- The state of the loop: the words matched so far. -/
structure Matched (D σ : Type) where
  words : List Word
  called : Called D σ

variable {D σ α : Type}

/-- How a branch ends: `return`, or on to the next token. -/
inductive Flow where
  | ret (code : Int)
  | next
  deriving DecidableEq

def inProgram (x : Exec σ α) : Exec (Called D σ) α :=
  Exec.zoom (·.state) (fun c s => { c with state := s }) x

def perform (P : Program D σ) (op : Operation D) : Exec (Called D σ) Int := do
  modify fun c => { c with operations := c.operations ++ [op] }
  inProgram (P.perform op)

/-- `if (op != 0) return 1;` -/
def orReturn (P : Program D σ) (op : Operation D) : Exec (Called D σ) Flow := do
  if (← perform P op) ≠ 0 then pure (.ret 1) else pure .next

/-- A call whose return code is printed at most. -/
def andGoOn (P : Program D σ) (op : Operation D) : Exec (Called D σ) Flow := do
  let _ ← perform P op
  pure .next

/-- `argv[i + k]` by what follows `argv[i]`: NULL behind the last token, and nothing that can
be read behind that. -/
def argvAt (operands : List CStr) (k : Nat) : Exec (Called D σ) (Option CStr) :=
  if k ≤ operands.length + 1 then pure (operands[k - 1]?) else throw .undefined

/-- A pointer handed to a string function. -/
def deref (s : Option CStr) : Exec (Called D σ) CStr :=
  match s with
  | some s => pure s
  | none => throw .undefined

/-! ## `set-limit` and `config` -/

/-- The options that `set-limit` looks for. -/
inductive LimitOption where
  | cpu | mem | type
  deriving DecidableEq

def limitOption (token : CStr) : Option LimitOption :=
  if token = .ofText "-cpu" then some .cpu
  else if token = .ofText "-mem" then some .mem
  else if token = .ofText "-t" ∨ token = .ofText "--type" then some .type
  else none

structure LimitArgs (D : Type) where
  cpuLimit : D
  memBytesStr : Option CStr
  useLarge : Bool
  useExtreme : Bool
  doCpuLimit : Bool
  doMemLimit : Bool

/-- The loop over `k`, which looks for a type; `none` returns 1. -/
def typeArgs : List CStr → LimitArgs D → Option (LimitArgs D)
  | [], a => some a
  | token :: rest, a =>
    if limitOption token = some .type then
      match rest.head? with
      | none => none
      | some type =>
        if type = .ofText "standard" then typeArgs rest { a with useLarge := false }
        else if type = .ofText "custom" then typeArgs rest { a with useLarge := true }
        else if type = .ofText "extreme" then typeArgs rest { a with useExtreme := true }
        else none
    else typeArgs rest a

/-- The loop over `j`; `none` returns 1. -/
def limitArgs (fl : Doubles D) : List CStr → LimitArgs D → Option (LimitArgs D)
  | [], a => some a
  | token :: rest, a =>
    match limitOption token with
    | some .cpu =>
      match rest.head? with
      | none => none
      | some limitStr =>
        match convertToFloat fl limitStr with
        | none => none
        | some cpuLimit => limitArgs fl rest { a with cpuLimit := cpuLimit, doCpuLimit := true }
    | some .mem =>
      match rest.head? with
      | none => none
      | some memBytesStr =>
        match typeArgs (token :: rest) { a with memBytesStr := some memBytesStr } with
        | none => none
        | some a => limitArgs fl rest { a with doMemLimit := true }
    | _ => limitArgs fl rest a

/-- The amount at the width of its type, and whether it is 0; a missing one is not looked at
for the standard type. -/
def limitAmount (fl : Doubles D) (a : LimitArgs D) : Exec (Called D σ) (Option Amount) :=
  if !a.useLarge && !a.useExtreme then
    match a.memBytesStr with
    | none => pure (some (.standard 0))
    | some size =>
      if convertToByte fl size = 0 then pure none
      else pure (some (.standard (convertToByte fl size)))
  else do
    let size ← deref a.memBytesStr
    if !a.useExtreme then
      if convertToByteLrg fl size = 0 then pure none
      else pure (some (.custom (convertToByteLrg fl size)))
    else if convertToByteExtr fl size = 0 then pure none
    else pure (some (.extreme (convertToByteExtr fl size)))

/-- The question that more than ten cores raise, read into two bytes; `true` declines. -/
def declines (P : Program D σ) : Exec (Called D σ) Bool := do
  match ← inProgram P.answer with
  | none => pure true
  | some conformationToContinue =>
    if 2 ≤ conformationToContinue.len then throw .undefined
    else
      pure (conformationToContinue = .ofText "n" ∨ conformationToContinue = .ofText "N" : Bool)

/-- `reformatLimits = true`. -/
def markLimits (P : Program D σ) : Exec (Called D σ) Unit := inProgram (modify P.markLimits)

/-- What `set-limit` calls once its options are read. The standard type marks the limits after
success, the other two with `-cpu` after a failure. -/
def applyLimits (P : Program D σ) (fl : Doubles D) (serviceName : CStr) (a : LimitArgs D) :
    Exec (Called D σ) Flow := do
  if a.doCpuLimit then
    match ← limitAmount fl a with
    | none => pure (.ret 1)
    | some amount =>
      let rc ← perform P (.setCpuResourceLimit serviceName a.cpuLimit (!amount.isZero) amount)
      if !a.useLarge && !a.useExtreme then
        if rc ≠ 0 then pure (.ret 1)
        else
          markLimits P
          pure .next
      else if rc ≠ 0 then
        markLimits P
        pure (.ret 1)
      else pure .next
  else if a.doMemLimit then
    match ← limitAmount fl a with
    | none => pure (.ret 1)
    | some amount =>
      if (← perform P (.setMemoryLimit serviceName amount)) ≠ 0 then pure (.ret 1)
      else
        markLimits P
        pure .next
  else pure .next

def setLimit (P : Program D σ) (fl : Doubles D) (operands : List CStr) :
    Exec (Called D σ) Flow := do
  match ← argvAt operands 1 with
  | none => pure (.ret 1)
  | some serviceName =>
    match limitArgs fl (.ofText "set-limit" :: operands) ⟨fl.zero, none, false, false, false, false⟩
      with
    | none => pure (.ret 1)
    | some a =>
      if a.doCpuLimit && fl.exceeds a.cpuLimit 10 then
        if ← declines P then pure (.ret 1) else applyLimits P fl serviceName a
      else applyLimits P fl serviceName a

/-- The options of `config job`. -/
inductive JobOption where
  | maxCpu | maxMemory
  deriving DecidableEq

def jobOption (token : CStr) : Option JobOption :=
  if token = .ofText "--max-cpu" ∨ token = .ofText "-mc" then some .maxCpu
  else if token = .ofText "--max-memory" ∨ token = .ofText "-mm" then some .maxMemory
  else none

/-- The loop over the options; `none` returns 1. -/
def jobArgs (fl : Doubles D) : List CStr → BitVec 64 × BitVec 128 →
    Option (BitVec 64 × BitVec 128)
  | [], a => some a
  | token :: rest, a =>
    match jobOption token with
    | some .maxCpu =>
      match rest.head? with
      | none => none
      | some cpulimitBuff =>
        if convertToSeconds fl cpulimitBuff = 0 then none
        else jobArgs fl rest (convertToSeconds fl cpulimitBuff, a.2)
    | some .maxMemory =>
      match rest.head? with
      | none => none
      | some memLimitBuff =>
        if convertToBytesJob fl memLimitBuff = 0 then none
        else jobArgs fl rest (a.1, convertToBytesJob fl memLimitBuff)
    | none => jobArgs fl rest a

def config (P : Program D σ) (fl : Doubles D) (operands : List CStr) :
    Exec (Called D σ) Flow := do
  if (← deref (← argvAt operands 1)) = .ofText "job" then
    match jobArgs fl operands (0, 0) with
    | none => pure (.ret 1)
    | some (cpuLimit, memLimit) =>
      orReturn P (.configJobRes memLimit cpuLimit (memLimit ≠ 0) (cpuLimit ≠ 0))
  else pure .next

/-! ## The branches -/

/-- A flag among the tokens from the `k`-th operand on. -/
def flagFrom (k : Nat) (flag : CStr) (operands : List CStr) : Bool :=
  decide (flag ∈ operands.drop (k - 1))

def stopOperands (P : Program D σ) : List CStr → Exec (Called D σ) Unit
  | [] => pure ()
  | name :: names => do
    let _ ← perform P (.stopService name)
    stopOperands P names

def oneOperand (P : Program D σ) (operands : List CStr) (op : CStr → Operation D) :
    Exec (Called D σ) Flow := do
  match ← argvAt operands 1 with
  | none => pure (.ret 1)
  | some x => orReturn P (op x)

/-- A branch that starts or restarts a service. -/
def startOperands (operands : List CStr) :
    Exec (Called D σ) (Option CStr × Option CStr × Bool) := do
  let name ← argvAt operands 1
  let bash ← argvAt operands 2
  pure (name, bash, flagFrom 1 (.ofText "--attach") operands)

/-- A branch that needs a service, a key and a value that the validators accept. -/
def envOperands (P : Program D σ) (operands : List CStr) (op : CStr → CStr → CStr → Operation D) :
    Exec (Called D σ) Flow := do
  match ← argvAt operands 1, ← argvAt operands 2, ← argvAt operands 3 with
  | some name, some key, some value =>
    if isValidEnvName name = false ∨ isValidEnvKey key = false ∨ isValidEnvValue value = false then
      pure (.ret 1)
    else orReturn P (op name key value)
  | _, _, _ => pure (.ret 1)

def addJob (P : Program D σ) (fl : Doubles D) (operands : List CStr) :
    Exec (Called D σ) Flow := do
  match ← argvAt operands 1 with
  | none => pure (.ret 1)
  | some jobName =>
    if isValidJobName jobName = false then pure (.ret 1)
    else
      match ← argvAt operands 2 with
      | none => pure (.ret 1)
      | some runnableFile =>
        if isValidJobPath runnableFile = false then pure (.ret 1)
        else if (← inProgram (P.fileExists runnableFile)) = false then pure (.ret 1)
        else
          match ← argvAt operands 3 with
          | none => pure (.ret 1)
          | some timeBuff =>
            if formatTime fl timeBuff = 0 then pure (.ret 1)
            else orReturn P (.createJob jobName runnableFile (formatTime fl timeBuff))

def timeShift (P : Program D σ) (operands : List CStr) : Exec (Called D σ) Flow := do
  match ← argvAt operands 1 with
  | none => pure (.ret 1)
  | some type =>
    if type = .ofText "create" then orReturn P .createTimeShift
    else if type = .ofText "apply" then
      if (← perform P .applyTimeShift) ≠ 0 then pure (.ret 1)
      else
        inProgram (modify P.keepState)
        pure .next
    else pure (.ret 1)

/-- The body of the loop for a word and the tokens behind it. -/
def branch (P : Program D σ) (fl : Doubles D) (word : Word) (operands : List CStr) :
    Exec (Called D σ) Flow :=
  match word with
  | .help => do
    let _ ← perform P .displayHelp
    pure (.ret 0)
  | .version => do
    let _ ← perform P .displayVersion
    pure (.ret 0)
  | .max => do
    andGoOn P (.reallocServices (atoi (← deref (← argvAt operands 1))))
  | .add => do
    let githubLink ← argvAt operands 1
    let nickName ← deref (← argvAt operands 2)
    if isValidName nickName ≠ 0 then pure (.ret 1)
    else
      let githubLink ← deref githubLink
      if isValidGithubRepo githubLink ≠ 0 then pure (.ret 1)
      else orReturn P (.addProject githubLink nickName)
  | .remove => do
    let _ ← perform P (.normalDeleteServices (← argvAt operands 1))
    markLimits P
    pure .next
  | .run => do
    match ← startOperands operands with
    | (none, _, _) => pure (.ret 1)
    | (some name, bash, attach) =>
      if name.bytes = [] then pure (.ret 1) else andGoOn P (.runService name bash attach)
  | .stop => do
    stopOperands P operands
    pure .next
  | .list => andGoOn P .listServices
  | .find => do
    match ← argvAt operands 1 with
    | none => pure (.ret 1)
    | some searchName =>
      andGoOn P (.search searchName (flagFrom 2 (.ofText "--sort") operands))
  | .update => do
    match ← argvAt operands 1 with
    | none => pure (.ret 1)
    | some name => andGoOn P (.updateService name (flagFrom 1 (.ofText "--stop") operands))
  | .neglectUpdates => do
    let _ ← perform P .neglectUpdate
    pure (.ret 0)
  | .restart => do
    match ← startOperands operands with
    | (none, _, _) => pure (.ret 1)
    | (some serviceName, bash, attach) => orReturn P (.restartService serviceName bash attach)
  | .rename => do
    let oldName ← argvAt operands 1
    let newName ← deref (← argvAt operands 2)
    if isValidName newName ≠ 0 then pure (.ret 1)
    else
      match oldName with
      | none => pure (.ret 1)
      | some oldName =>
        let _ ← perform P (.renameService oldName newName)
        markLimits P
        pure .next
  | .setLimit => setLimit P fl operands
  | .resUsage => oneOperand P operands .showRsUsage
  | .resLimit => oneOperand P operands .showRsLimit
  | .addJob => addJob P fl operands
  | .removeJob => oneOperand P operands .removeJob
  | .warmupJobs => orReturn P .launchDaemon
  | .listJobs => andGoOn P .showJobs
  | .config => config P fl operands
  | .showJobLimit => andGoOn P .showJobDaemonRsLimits
  | .restartJobs => orReturn P .restartJobDaemon
  | .stopJobs => orReturn P .stopJobDaemon
  | .jobStatus => andGoOn P .showDaemonStatus
  | .timeShift => timeShift P operands
  | .addEnv => envOperands P operands .addEnv
  | .showEnv => do
    match ← argvAt operands 1, ← argvAt operands 2 with
    | some name, some key => andGoOn P (.showEnv name key)
    | _, _ => pure (.ret 1)
  | .removeEnv => do
    match ← argvAt operands 1, ← argvAt operands 2 with
    | some name, some key => orReturn P (.removeEnv name key)
    | _, _ => pure (.ret 1)
  | .updateEnv => envOperands P operands .updateEnv

/-- `main` from a token on. -/
def mainLoop (P : Program D σ) (fl : Doubles D) : List CStr → Exec (Matched D σ) Int
  | [] => pure 0
  | token :: operands =>
    match Word.ofToken? token with
    | none => mainLoop P fl operands
    | some word => do
      modify fun m => { m with words := m.words ++ [word] }
      match ← Exec.zoom (·.called) (fun m c => { m with called := c }) (branch P fl word operands)
        with
      | .ret code => pure code
      | .next => mainLoop P fl operands

end MiniRunner.Argv
